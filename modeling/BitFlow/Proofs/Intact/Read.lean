import BitFlow.Proofs.Intact.Graph
import BitFlow.Proofs.Reaching.Quiet
import BitFlow.Proofs.Reaching.Sealing

/-!
# Reading and sealing cannot fail

On an intact graph whose tables are intact as well, a variable that is declared can be read at every
block that exists, and every block that is not sealed yet can be sealed. Nothing that is looked up
on the way is missing: the only fault left is that of a search without end, from which there is no
return. What is read is of the type of the variable.

Main statements: `Track.intact_read`, `Track.intact_sealBlock`.
-/

namespace BitFlow

/-! ## 1. Intact tables -/

/-- No phi waits under the name `v`. -/
def Tracked.Free (s : Tracked) (v : ValueId) : Prop :=
  ∀ b x, (x, v) ∉ s.reaching.pending.image b

/-- **Graph and tables are intact**: what is recorded for a variable is of its type, and a waiting
    phi is attached, has no operands, and is an operand of no phi. -/
structure Tracked.Intact (s : Tracked) : Prop where
  graph : s.graph.Intact
  mirrored : s.reaching.Mirrored
  defs : ∀ {b x o}, s.reaching.defs.get? (b, x) = some o →
    ∃ d, variableById? s.reaching.vars x = some d ∧ s.graph.typeOf? o = some d.ty
  nodup : ∀ b, (s.reaching.pending.image b).Nodup
  pending : ∀ {b x v}, (x, v) ∈ s.reaching.pending.image b →
    ∃ d, variableById? s.reaching.vars x = some d ∧ s.graph.phi? v = some ⟨b, d.ty, x, []⟩ ∧
      ∀ w, User.value v ∉ s.graph.users w

/-- The tables of an empty program. -/
theorem Tracked.Intact.fresh (name : String) (vars : List Variable) (nameValues : Bool) :
    (⟨.fresh name, .fresh vars nameValues⟩ : Tracked).Intact where
  graph := .fresh name
  mirrored := .fresh vars nameValues
  defs := fun h => by cases h
  nodup := fun _ => List.nodup_nil
  pending := fun h => by cases h

theorem Graph.Quiet.block {g g' : Graph} (h : g.Quiet g') {b : BlockId} {y : Block}
    (hy : g.block? b = some y) : ∃ y', g'.block? b = some y' ∧ y'.instrs = y.instrs := by
  have hb := h.instrs b
  rw [hy] at hb
  exact Option.map_eq_some_iff.1 hb

theorem Graph.Quiet.evolves {g g' : Graph} (h : g.Quiet g') : g.Evolves g' where
  types := fun o ty ho => by
    cases o with
    | lit c => exact ho
    | undef t => exact ho
    | value v =>
      obtain ⟨x, hx, rfl⟩ := Option.map_eq_some_iff.1 ho
      obtain ⟨x', hx', hty, -⟩ := h.value hx
      rw [Graph.typeOf?_value hx', hty]
  blocks := fun hy => (h.block hy).imp fun _ hy' => hy'.1

namespace Tracked

variable {s t : Tracked} {v : ValueId} {b : BlockId} {x : VarId}

/-- A value that was there and did not wait does not wait later. -/
theorem Quiet.free (h : s.Quiet t) {z : Value} (hv : s.graph.value? v = some z) (hf : s.Free v) :
    t.Free v := fun b x hx => (h.joined hx).elim (hf b x) fun hle =>
  absurd (Graph.index_lt_of_value? hv) (Nat.not_lt_of_le hle)

namespace Intact

variable (h : s.Intact)

include h

/-- What a variable holds is of its type. -/
theorem reached {o : Operand} (ho : s.reached x b = some o) :
    ∃ d, variableById? s.reaching.vars x = some d ∧ s.graph.typeOf? o = some d.ty := by
  obtain ⟨a, ha, rfl⟩ := Option.map_eq_some_iff.1 ho
  obtain ⟨d, hd, htype⟩ := h.defs ha
  exact ⟨d, hd, h.graph.typeOf?_resolve htype⟩

/-- A value that does not wait, since those that wait are phis that exist. -/
theorem free_of_value?_eq_none (hv : s.graph.value? v = none) : s.Free v := by
  intro b x hx
  obtain ⟨d, -, hp, -⟩ := h.pending hx
  obtain ⟨z, hz, -⟩ := Graph.phi?_eq_some.1 hp
  cases hv.symm.trans hz

/-- Who uses a value does not wait. -/
theorem free_of_user {w : ValueId} (hu : User.value v ∈ s.graph.users w) : s.Free v := by
  intro b x hx
  obtain ⟨d, -, -, hn⟩ := h.pending hx
  exact hn w hu

theorem alike (ha : s.Alike t) : t.Intact where
  graph := h.graph.alike ha.graph
  mirrored := fun w q => by
    rw [ha.holders, ha.defs]
    exact h.mirrored w q
  defs := fun ho => by
    rw [ha.defs] at ho
    obtain ⟨d, hd, hty⟩ := h.defs ho
    exact ⟨d, ha.vars ▸ hd, (ha.graph.typeOf? _).trans hty⟩
  nodup := fun b => ha.pending ▸ h.nodup b
  pending := fun hx => by
    rw [ha.pending] at hx
    obtain ⟨d, hd, hp, hn⟩ := h.pending hx
    refine ⟨d, ha.vars ▸ hd, (ha.graph.phi? _).trans hp, fun w hw => hn w ?_⟩
    unfold Graph.users at hw ⊢
    rwa [ha.graph.uses] at hw

/-- The graph changes, but not the waiting phis. -/
theorem onGraph {g : Graph} (hg : g.Intact) (he : s.graph.Evolves g)
    (hphi : ∀ {v p}, ¬ s.Free v → s.graph.phi? v = some p → g.phi? v = some p)
    (husers : ∀ {v w}, ¬ s.Free v → User.value v ∈ g.users w → User.value v ∈ s.graph.users w) :
    (⟨g, s.reaching⟩ : Tracked).Intact where
  graph := hg
  mirrored := h.mirrored
  defs := fun ho => (h.defs ho).imp fun _ hd => ⟨hd.1, he.types _ _ hd.2⟩
  nodup := h.nodup
  pending := fun {b x v} hx => by
    obtain ⟨d, hd, hp, hn⟩ := h.pending hx
    have hwaits : ¬ s.Free v := fun hf => hf b x hx
    exact ⟨d, hd, hphi hwaits hp, fun w hw => hn w (husers hwaits hw)⟩

/-- Counts, names and the list of the phis being filled play no part. -/
theorem onTables {r : Reaching} (hvars : r.vars = s.reaching.vars)
    (hdefs : r.defs = s.reaching.defs) (hholders : r.holders = s.reaching.holders)
    (hpending : r.pending = s.reaching.pending) : (⟨s.graph, r⟩ : Tracked).Intact where
  graph := h.graph
  mirrored := fun w q => by
    rw [hholders, hdefs]
    exact h.mirrored w q
  defs := fun ho => (h.defs (hdefs ▸ ho)).imp fun _ hd => ⟨hvars ▸ hd.1, hd.2⟩
  nodup := fun b => hpending ▸ h.nodup b
  pending := fun hx => by
    obtain ⟨d, hd, hp⟩ := h.pending (hpending ▸ hx)
    exact ⟨d, hvars ▸ hd, hp⟩

/-- A definition of the right type is recorded. -/
theorem record {o : Operand} {d : Variable} (hd : variableById? s.reaching.vars x = some d)
    (ho : s.graph.typeOf? o = some d.ty) (b : BlockId) : (s.recorded x b o).Intact where
  graph := h.graph
  mirrored := h.mirrored.record x b o
  defs := fun {c z a} ha => by
    have hget : (s.reaching.record x b o).defs.get? (c, z) = some a := ha
    rw [Reaching.get?_record] at hget
    split at hget
    · rename_i e
      cases e
      cases hget
      exact ⟨d, hd, ho⟩
    · exact h.defs hget
  nodup := h.nodup
  pending := h.pending

/-- A value that does not wait is rerouted in the tables. -/
theorem reroute {z : Value} {o : Operand} (hv : s.graph.value? v = some z)
    (ho : s.graph.typeOf? o = some z.ty) (hne : o ≠ .value v) :
    (⟨s.graph, (s.reaching.reroute v o).countRemoved⟩ : Tracked).Intact := by
  obtain ⟨_, _, hroute⟩ := s.reaching.reroute_eq v o
  have hpending : (s.reaching.reroute v o).pending = s.reaching.pending := by rw [hroute]
  have hvars : (s.reaching.reroute v o).vars = s.reaching.vars := by rw [hroute]
  refine ⟨h.graph, h.mirrored.reroute hne, fun {b x a} ha => ?_, fun b => ?_,
    fun {b x w} hx => ?_⟩
  · have hget : (s.reaching.reroute v o).defs.get? (b, x) = some a := ha
    rw [Reaching.get?_reroute h.mirrored] at hget
    obtain ⟨a, ha₀, rfl⟩ := Option.map_eq_some_iff.1 hget
    obtain ⟨d, hd, hty⟩ := h.defs ha₀
    refine ⟨d, (congrArg (variableById? · x) hvars).trans hd, ?_⟩
    exact (Graph.typeOf?_replace (ho.trans (Graph.typeOf?_value hv).symm) a).trans hty
  · exact hpending ▸ h.nodup b
  · have hx₀ : (x, w) ∈ (s.reaching.reroute v o).pending.image b := hx
    rw [hpending] at hx₀
    obtain ⟨d, hd, hp⟩ := h.pending hx₀
    exact ⟨d, (congrArg (variableById? · x) hvars).trans hd, hp⟩

/-- A new phi without operands that nobody looks at waits in its block. -/
theorem await {d : Variable} (hd : variableById? s.reaching.vars x = some d)
    (hp : s.graph.phi? v = some ⟨b, d.ty, x, []⟩) (hn : ∀ w, User.value v ∉ s.graph.users w)
    (hfree : s.Free v) :
    (⟨s.graph, { s.reaching with pending := s.reaching.pending.add b (x, v) }⟩ : Tracked).Intact
      where
  graph := h.graph
  mirrored := h.mirrored
  defs := h.defs
  nodup := fun c => by
    show ((s.reaching.pending.add b (x, v)).image c).Nodup
    unfold Multimap.add
    rw [Multimap.image_setImage]
    split
    · exact Ranked.nodup_insert (h.nodup b) (hfree b x)
    · exact h.nodup c
  pending := fun {c x' w} hx => by
    rcases (Multimap.mem_image_add _ _ _ _ _).1 hx with ⟨rfl, e⟩ | hx
    · cases e
      exact ⟨d, hd, hp, hn⟩
    · exact h.pending hx

/-- A phi waits no longer. -/
theorem unawait (b : BlockId) (p : VarId × ValueId) :
    (⟨s.graph, { s.reaching with pending := s.reaching.pending.remove b p }⟩ : Tracked).Intact where
  graph := h.graph
  mirrored := h.mirrored
  defs := h.defs
  nodup := fun c => by
    show ((s.reaching.pending.remove b p).image c).Nodup
    unfold Multimap.remove
    rw [Multimap.image_setImage]
    split
    · exact (h.nodup b).filter _
    · exact h.nodup c
  pending := fun hx => h.pending ((Multimap.mem_image_remove _ _ _ _ _).1 hx).1

/-- A phi that waited does not wait any more, for it waited in one place only. -/
theorem free_unawait (hx : (x, v) ∈ s.reaching.pending.image b) :
    (⟨s.graph, { s.reaching with pending := s.reaching.pending.remove b (x, v) }⟩ : Tracked).Free
      v := by
  intro c z hz
  obtain ⟨hz, hne⟩ := (Multimap.mem_image_remove _ _ _ _ _).1 hz
  obtain ⟨d, -, hp, -⟩ := h.pending hx
  obtain ⟨d', -, hp', -⟩ := h.pending hz
  have e := hp.symm.trans hp'
  injection e with e
  injection e with hb _ hx
  exact hne ⟨hb, by rw [hx]⟩

end Intact

end Tracked

/-! ## 2. Computations that succeed -/

namespace Track

variable {α β : Type} {R : Fault → Prop} {s t : Tracked} {A : α → Tracked → Prop}
  {B : β → Tracked → Prop}

/-- **The computation comes to an answer**, unless it never comes to an end: it touches no
    instruction, keeps graph and tables intact, and its answers satisfy `A`. -/
def Succeeds (s : Tracked) (x : Track α) (A : α → Tracked → Prop) : Prop :=
  Ends x s (· = .endless) fun a t => s.Quiet t ∧ t.Intact ∧ A a t

namespace Succeeds

theorem pure {a : α} (hs : s.Intact) (ha : A a s) : Succeeds s (pure a) A :=
  ⟨.refl s, hs, ha⟩

theorem bind {x : Track α} {f : α → Track β} (hx : Succeeds s x A)
    (hf : ∀ a t, s.Quiet t → t.Intact → A a t → Succeeds t (f a) B) :
    Succeeds s (x >>= f) B :=
  Ends.seq hx fun a t ht => Ends.mono (hf a t ht.1 ht.2.1 ht.2.2) fun _ _ hu =>
    ⟨ht.1.trans hu.1, hu.2⟩

/-- What a computation changes on graph and tables is known from elsewhere. -/
theorem of_hushed {x : Track α} {C : α → Prop} (hq : Hushed s x C)
    (hx : Ends x s (· = .endless) fun a t => t.Intact ∧ A a t) : Succeeds s x A :=
  hx.imp fun _ _ run ha => ⟨(hq.of_ok run).1, ha⟩

theorem discard {x : Track α} (hx : Succeeds s x A) :
    Succeeds s (discard x) fun _ _ => True :=
  (Ends.discard_iff x).2 (Ends.mono hx fun _ _ h => ⟨h.1, h.2.1, trivial⟩)

theorem forM (hs : s.Intact) {k : α → Track PUnit} (as : List α)
    (hk : ∀ a ∈ as, ∀ t, s.Quiet t → t.Intact → Succeeds t (k a) fun _ _ => True) :
    Succeeds s (as.forM k) fun _ _ => True := by
  induction as generalizing s with
  | nil => exact pure hs trivial
  | cons a as ih =>
    obtain ⟨ha, has⟩ := List.forall_mem_cons.1 hk
    exact bind (ha s (.refl s) hs) fun _ t ht hi _ =>
      ih hi fun b hb u hu hiu => has b hb u (ht.trans hu) hiu

/-- A value that exists is looked up. -/
theorem value {v : ValueId} {z : Value} {f : Value → Track β} (hv : s.graph.value? v = some z)
    (hf : Succeeds s (f z) B) : Succeeds s ((liftM (Edit.value v) : Track Value) >>= f) B := by
  unfold Succeeds
  rw [Ends.bind_iff, ends_lift, Edit.ends_value hv]
  exact hf

/-- A block that exists is looked up. -/
theorem block {b : BlockId} {y : Block} {f : Block → Track β} (hb : s.graph.block? b = some y)
    (hf : Succeeds s (f y) B) : Succeeds s ((liftM (Edit.block b) : Track Block) >>= f) B := by
  unfold Succeeds
  rw [Ends.bind_iff, ends_lift, Edit.ends_block hb]
  exact hf

/-- Counts, names and the list of the phis being filled change. -/
theorem onTables (hs : s.Intact) {f : Reaching → Reaching}
    (hvars : (f s.reaching).vars = s.reaching.vars) (hdefs : (f s.reaching).defs = s.reaching.defs)
    (hholders : (f s.reaching).holders = s.reaching.holders)
    (hpending : (f s.reaching).pending = s.reaching.pending) :
    Succeeds s (onTables f) fun _ _ => True :=
  ⟨.of_graph (.refl _) hvars hpending, hs.onTables hvars hdefs hholders hpending, trivial⟩

/-- The declaration of a variable that has one is looked up. -/
theorem declaration {x : VarId} {d : Variable} {f : Variable → Track β}
    (hd : variableById? s.reaching.vars x = some d) (hf : Succeeds s (f d) B) :
    Succeeds s (declaration x >>= f) B := by
  unfold Succeeds
  rw [Ends.bind_iff]
  refine ends_declaration (fun e => ?_) fun d' hd' => ?_
  · cases hd.symm.trans e
  · cases hd.symm.trans hd'
    exact hf

/-- A definition of the right type is recorded. -/
theorem record (hs : s.Intact) {x : VarId} {d : Variable} {o : Operand}
    (hd : variableById? s.reaching.vars x = some d) (ho : s.graph.typeOf? o = some d.ty)
    (b : BlockId) : Succeeds s (Track.onTables (·.record x b o)) fun _ t => t = s.recorded x b o :=
  ⟨.of_graph (.refl _) rfl rfl, hs.record hd ho b, rfl⟩

/-- An operand is resolved. -/
theorem resolve {o : Operand} {ty : Ty} (hs : s.Intact) (ho : s.graph.typeOf? o = some ty) :
    Succeeds s (liftM (Edit.resolve o) : Track Operand) fun o t => t.graph.typeOf? o = some ty :=
  ⟨.refl s, hs, hs.graph.typeOf?_resolve ho⟩

end Succeeds

end Track

/-! ## 3. Removal -/

namespace Track

variable {α : Type} {R : Fault → Prop} {s : Tracked} {v : ValueId} {z : Value} {b : BlockId}
  {o : Operand}

/-- **A phi that does not wait is retired.** -/
theorem intact_retire (hs : s.Intact) (hv : s.graph.value? v = some z) (hb : z.block = some b)
    (ho : s.graph.typeOf? o = some z.ty) (hne : o ≠ .value v) (hfree : s.Free v) :
    Ends (retire v o) s R fun former t => former = s.graph.users v ∧ t.Intact := by
  obtain ⟨y, hy⟩ := (hs.graph.values hv).owner hb
  unfold retire
  rw [Ends.bind_iff, ends_lift]
  refine (Edit.ends_replaceUses (fun _ hu => hs.graph.users hu) o).mono fun former g₁ h => ?_
  obtain ⟨rfl, hre⟩ := h
  obtain ⟨z₁, hz₁, hty₁, hb₁⟩ : ∃ z₁, g₁.value? v = some z₁ ∧ z₁.ty = z.ty ∧ z₁.block = some b := by
    refine ⟨_, (hre.value v).trans (congrArg (Option.map _) hv), ?_, ?_⟩
    · split <;> rfl
    · split <;> exact hb
  have hy₁ := (hre.block b).trans (congrArg (Option.map _) hy)
  rw [Ends.bind_iff, ends_lift, Edit.ends_detach hz₁ hb₁ hy₁, Ends.bind_iff, ends_onGraph,
    Ends.modify_iff, Ends.bind_iff, ends_onTables, Ends.pure_iff]
  refine ⟨rfl, ?_⟩
  have he₁ : s.graph.Evolves g₁ := .rerouted hre
  have he₂ := Graph.Evolves.without g₁ v z₁ b
  -- who waits uses neither `v` nor `o`
  have hother : ∀ {w}, ¬ s.Free w → w ≠ v ∧ User.value w ∉ s.graph.users v := fun hw =>
    ⟨fun e => hw (e ▸ hfree), fun hu => hw (hs.free_of_user hu)⟩
  have h₁ : (⟨g₁, s.reaching⟩ : Tracked).Intact := by
    refine hs.onGraph (hs.graph.rerouted hv ho (fun u hu => hs.graph.users hu) hre) he₁
      (fun {w p} hw hp => ?_) fun {w a} hw hu => ?_
    · unfold Graph.phi? at hp ⊢
      rw [hre.value]
      obtain ⟨x, hx, hp⟩ := Option.bind_eq_some_iff.1 hp
      rw [hx, Option.map_some, if_neg (hother hw).2]
      exact hp
    · rcases (hre.users a _).1 hu with ⟨-, hu⟩ | ⟨-, hu⟩
      · exact hu
      · exact absurd hu (hother hw).2
  have h₂ : (⟨g₁.without v z₁ b, s.reaching⟩ : Tracked).Intact := by
    refine h₁.onGraph (h₁.graph.without v z₁ b) he₂ (fun {w p} hw hp => ?_) fun {w a} _ hu =>
      ((Graph.mem_users_without g₁ v z₁ b a _).1 hu).1
    unfold Graph.phi? at hp ⊢
    rwa [Graph.value?_without_of_ne g₁ z₁ b (hother hw).1]
  have hv₂ := Graph.value?_without_self hz₁ b
  have ho₂ : (g₁.without v z₁ b).typeOf? o = some z₁.ty := hty₁ ▸ he₂.types _ _ (he₁.types _ _ ho)
  have h₃ : (⟨(g₁.without v z₁ b).setForward v o, s.reaching⟩ : Tracked).Intact :=
    h₂.onGraph (h₂.graph.setForward (Graph.typeOf?_value hv₂) ho₂) (.setForward _ v o)
      (fun _ hp => hp) fun _ hu => hu
  exact h₃.reroute hv₂ ho₂ hne

/-- Whether an attached phi is superfluous can be told; if it is, it stands for an operand of its
    type. -/
theorem exists_trivialReplacement {g : Graph} (hg : g.Intact) (hv : g.value? v = some z)
    (hphi : z.isPhi = true) : ∃ r, g.trivialReplacement v = .ok r ∧
      ∀ o, r = some o → (∃ b, z.block = some b) ∧ o ≠ .value v ∧ g.typeOf? o = some z.ty := by
  unfold Graph.trivialReplacement Graph.requireValue Graph.requireBlock
  rw [hv]
  simp only [bind, Except.bind]
  cases hb : z.block with
  | none => exact ⟨none, rfl, fun o ho => by cases ho⟩
  | some b =>
    obtain ⟨y, hy⟩ := (hg.values hv).owner hb
    cases hk : z.kind with
    | instr i =>
      unfold Value.isPhi at hphi
      rw [hk] at hphi
      cases hphi
    | phi p =>
      simp only [hy]
      split
      · refine ⟨_, rfl, fun o ho => ⟨⟨b, rfl⟩, ?_⟩⟩
        rcases (soleOperand_eq_some ho).2 with ⟨hmem, hne⟩ | ⟨rfl, -⟩
        · refine ⟨hne, (hg.values hv).phi hphi o ?_⟩
          unfold Value.operands
          rwa [hk]
        · exact ⟨fun e => (by cases e), rfl⟩
      · exact ⟨none, rfl, fun o ho => by cases ho⟩

/-- A former user that is a phi does not wait, so it can be removed in turn. -/
theorem intact_recheck {remove : ValueId → Track Operand}
    (hremove : ∀ w t z, t.Intact → t.graph.value? w = some z → z.isPhi = true → t.Free w →
      Succeeds t (remove w) fun o t => t.graph.typeOf? o = some z.ty)
    (hs : s.Intact) (v : ValueId) {u : User} (hu : s.graph.KnowsUser u)
    (hfree : ∀ w, u = .value w → s.Free w) :
    Succeeds s (recheck remove v u) fun _ _ => True := by
  cases u with
  | branch b => exact .pure hs trivial
  | value w =>
    obtain ⟨x, hx⟩ := hu
    show Ends (get >>= _) s _ _
    rw [Ends.bind_iff, Ends.get_iff]
    split
    · exact Succeeds.pure hs trivial
    · refine Succeeds.value hx ?_
      split
      · rename_i hcond
        rw [Bool.and_eq_true] at hcond
        exact (hremove w s x hs hx hcond.1 (hfree w rfl)).discard
      · exact .pure hs trivial

/-- **A phi that does not wait is removed if it is superfluous.** -/
theorem intact_removeTrivialWithin (n : Nat) (v : ValueId) (s : Tracked) (z : Value)
    (hs : s.Intact) (hv : s.graph.value? v = some z) (hphi : z.isPhi = true)
    (hfree : s.Free v) :
    Succeeds s (removeTrivialWithin n v) fun o t => t.graph.typeOf? o = some z.ty := by
  induction n generalizing v s z with
  | zero => exact rfl
  | succ n ih =>
    have hself : s.graph.typeOf? (.value v) = some z.ty := Graph.typeOf?_value hv
    refine .value hv ?_
    split
    · obtain ⟨r, hr, hsole⟩ := exists_trivialReplacement hs.graph hv hphi
      unfold Succeeds
      rw [Ends.bind_iff, ends_ask hr]
      cases r with
      | none => exact Succeeds.pure hs hself
      | some o =>
        obtain ⟨⟨b, hb⟩, hne, ho⟩ := hsole o rfl
        refine Succeeds.bind (.of_hushed (quiet_retire ⟨z, hv, hphi⟩ o)
          ((intact_retire hs hv hb ho hne hfree).mono fun _ _ h => And.comm.1 h))
          fun former t ht hi hformer => ?_
        refine .bind (.forM hi former fun u hu t' ht' hi' => ?_) fun _ t' ht' hi' _ => ?_
        · rw [hformer] at hu
          refine intact_recheck (fun w t z => ih w t z) hi' v ?_ fun w e => ?_
          · exact (ht.trans ht').graph.evolves.knowsUser (hs.graph.users hu)
          · subst e
            obtain ⟨x, hx⟩ := hs.graph.users hu
            exact (ht.trans ht').free hx (hs.free_of_user hu)
        · exact .resolve hi' ((ht.trans ht').graph.evolves.types _ _ ho)
    · exact .resolve hs hself

/-! ## 4. Filling a phi -/

variable {x : VarId} {d : Variable} {y : Block} {p : Phi}

theorem value_of_phi? {g : Graph} {ty : Ty} {ps : List (Operand × BlockId)}
    (h : g.phi? v = some ⟨b, ty, x, ps⟩) :
    ∃ z, g.value? v = some z ∧ z.block = some b ∧ z.ty = ty ∧ z.isPhi = true := by
  obtain ⟨z, hz, hb, hty, hk⟩ := Graph.phi?_eq_some.1 h
  refine ⟨z, hz, hb, hty, ?_⟩
  unfold Value.isPhi
  rw [hk]

/-- **A new phi**: it has no operands, nobody looks at it, and it does not wait. -/
theorem intact_newPhi (hs : s.Intact) (hb : s.graph.block? b = some y)
    (hd : variableById? s.reaching.vars x = some d) :
    Succeeds s (newPhi b x) fun v t => t.graph.phi? v = some ⟨b, d.ty, x, []⟩ ∧
      (∀ w, User.value v ∉ t.graph.users w) ∧ t.Free v := by
  refine .of_hushed (quiet_newPhi b x) ((ends_newPhi hb fun e => ?_).mono fun v t h => ?_)
  · cases hd.symm.trans e
  obtain ⟨rfl, d', hd', ha⟩ := h
  cases hd.symm.trans hd'
  have hnext := s.graph.value?_nextValue
  have hs₁ : (⟨s.graph.withPhi b x d.ty, s.reaching⟩ : Tracked).Intact := by
    refine hs.onGraph (hs.graph.withPhi hb x d.ty) (.withPhi s.graph b x d.ty) (fun hw hp => ?_)
      fun _ hu => hu
    rw [Graph.phi?_withPhi, if_neg, hp]
    rintro rfl
    exact hw (hs.free_of_value?_eq_none hnext)
  refine ⟨hs₁.alike ha, ?_, fun w hu => ?_, fun c z hz => ?_⟩
  · rw [ha.graph.phi?, Graph.phi?_withPhi, if_pos rfl]
  · have hu₀ : User.value s.graph.nextValue ∈ s.graph.users w := by
      unfold Graph.users at hu ⊢
      rwa [ha.graph.uses] at hu
    obtain ⟨z, hz⟩ := hs.graph.users hu₀
    cases hnext.symm.trans hz
  · rw [ha.pending] at hz
    exact hs.free_of_value?_eq_none hnext c z hz

/-- A phi that does not wait takes one more operand. -/
theorem intact_pushIncoming (hs : s.Intact) (hv : s.graph.value? v = some z)
    (hphi : z.isPhi = true) (hfree : s.Free v) (ho : s.graph.typeOf? o = some z.ty) (q : BlockId) :
    Succeeds s (liftM (Edit.pushIncoming v o q) : Track Unit) fun _ _ => True := by
  refine .of_hushed (quiet_edit (Edit.quiet_pushIncoming v o q)) ?_
  cases hk : z.kind with
  | instr i =>
    unfold Value.isPhi at hphi
    rw [hk] at hphi
    cases hphi
  | phi p =>
    unfold Edit.pushIncoming
    rw [ends_lift, Ends.bind_iff, Edit.ends_value hv]
    simp only [hk]
    rw [Ends.bind_iff, Ends.modify_iff, Ends.modify_iff]
    refine ⟨?_, trivial⟩
    show (⟨s.graph.withIncoming v p o q, s.reaching⟩ : Tracked).Intact
    refine hs.onGraph (hs.graph.withIncoming hv hk ho q) (.withIncoming _ v p o q)
      (fun {w p'} hw hp => ?_) fun {w a} hw hu => ?_
    · have hne : v ≠ w := fun e => hw (e ▸ hfree)
      unfold Graph.phi? at hp ⊢
      rw [Graph.value?_withIncoming]
      obtain ⟨x, hx, hp⟩ := Option.bind_eq_some_iff.1 hp
      rw [hx, Option.map_some, if_neg hne]
      exact hp
    · rcases (Graph.Intact.mem_users_withIncoming _ _ _ _ _ _ _).1 hu with ⟨e, -⟩ | hu
      · cases e
        exact absurd hfree hw
      · exact hu

/-- **A phi that does not wait gets its operands.** -/
theorem intact_fillWith {read : BlockId → Track Operand} (hs : s.Intact)
    (hv : s.graph.value? v = some z) (hb : z.block = some b) (hphi : z.isPhi = true)
    (hfree : s.Free v) (hread : ∀ q t, s.Quiet t → t.Intact → (∃ y, t.graph.block? q = some y) →
      Succeeds t (read q) fun o u => u.graph.typeOf? o = some z.ty) :
    Succeeds s (fillWith read v) fun o t => t.graph.typeOf? o = some z.ty := by
  obtain ⟨y, hy⟩ := (hs.graph.values hv).owner hb
  -- whatever is read, `v` is still a phi of that type, and does not wait
  have hlater : ∀ {t}, s.Quiet t → ∃ z', t.graph.value? v = some z' ∧ z'.ty = z.ty ∧
      z'.isPhi = true ∧ t.Free v := by
    intro t ht
    obtain ⟨z', hz', hty, hk⟩ := ht.graph.value hv
    exact ⟨z', hz', hty, hk.trans hphi, ht.free hv hfree⟩
  refine .value hv ?_
  simp only [hb]
  refine .block hy (.bind (.onTables hs rfl rfl rfl rfl) fun _ s₁ h₁ hi₁ _ => ?_)
  refine .bind (.forM hi₁ _ fun q hq t ht hi => ?_) fun _ s₂ h₂ hi₂ _ => ?_
  · obtain ⟨y', hy'⟩ := hs.graph.preds hy hq
    refine .bind (hread q t (h₁.trans ht) hi ((h₁.trans ht).graph.evolves.blocks hy'))
      fun o u hu hiu ho => ?_
    obtain ⟨z', hz', hty, hk, hf⟩ := hlater ((h₁.trans ht).trans hu)
    exact intact_pushIncoming hiu hz' hk hf (hty ▸ ho) q
  · refine .bind (.onTables hi₂ rfl rfl rfl rfl) fun _ s₃ h₃ hi₃ _ => ?_
    obtain ⟨z', hz', hty, hk, hf⟩ := hlater ((h₁.trans h₂).trans h₃)
    exact hty ▸ intact_removeTrivialWithin _ v s₃ z' hi₃ hz' hk hf

/-! ## 5. Reading -/

/-- What is read through the predecessors of a block. -/
theorem intact_readThrough {read : BlockId → Track Operand} (hs : s.Intact)
    (hb : s.graph.block? b = some y) (hd : variableById? s.reaching.vars x = some d)
    (hread : ∀ q t, s.Quiet t → t.Intact → (∃ y, t.graph.block? q = some y) →
      Succeeds t (read q) fun o u => u.graph.typeOf? o = some d.ty) :
    Succeeds s (readThrough read x b) fun o t => t.graph.typeOf? o = some d.ty := by
  unfold readThrough
  refine Succeeds.declaration hd (.block hb ?_)
  split
  · split
    · exact .pure hs rfl
    · rename_i q hq
      exact hread q s (.refl s) hs (hs.graph.preds hb (hq ▸ List.mem_cons_self))
    · refine .bind (intact_newPhi hs hb hd) fun v t ht hi ⟨hp, _, hfree⟩ => ?_
      obtain ⟨z, hz, hzb, hty, hphi⟩ := value_of_phi? hp
      have hvty : t.graph.typeOf? (.value v) = some d.ty := hty ▸ Graph.typeOf?_value hz
      refine .bind (.record hi (ht.vars ▸ hd) hvty b) fun _ u hu hiu e => ?_
      subst e
      exact hty ▸ intact_fillWith hiu hz hzb hphi hfree
        fun q t' ht' hi' hq => hty ▸ hread q t' ((ht.trans hu).trans ht') hi' hq
  · refine .of_hushed (quiet_await b x) (Ends.seq (intact_newPhi hs hb hd)
      fun v t ⟨ht, hi, hp, hn, hfree⟩ => ⟨hi.await (by rw [ht.vars, hd]) hp hn hfree, ?_⟩)
    obtain ⟨z, hz, -, hty, hphi⟩ := value_of_phi? hp
    exact hty ▸ Graph.typeOf?_value hz

/-- What is read in a bounded number of blocks. -/
theorem intact_readWithin (n : Nat) (s : Tracked) (b : BlockId) (hs : s.Intact)
    (hb : ∃ y, s.graph.block? b = some y) (hd : variableById? s.reaching.vars x = some d) :
    Succeeds s (readWithin n x b) fun o t => t.graph.typeOf? o = some d.ty := by
  induction n generalizing s b with
  | zero =>
    unfold readWithin Succeeds
    rw [Ends.bind_iff, Ends.get_iff]
    cases hx : s.reaching.definition? x b with
    | some o =>
      obtain ⟨d', hd', ho⟩ := hs.defs hx
      cases hd.symm.trans hd'
      exact Succeeds.resolve hs ho
    | none => exact rfl
  | succ n ih =>
    unfold readWithin Succeeds
    rw [Ends.bind_iff, Ends.get_iff]
    cases hx : s.reaching.definition? x b with
    | some o =>
      obtain ⟨d', hd', ho⟩ := hs.defs hx
      cases hd.symm.trans hd'
      exact Succeeds.resolve hs ho
    | none =>
      obtain ⟨y, hy⟩ := hb
      refine Succeeds.bind (intact_readThrough hs hy hd fun q t ht hi hq =>
        ih t q hi hq (ht.vars ▸ hd)) fun o t ht hi ho => ?_
      refine .bind (.resolve hi ho) fun o u hu hiu ho => ?_
      have hd' : variableById? u.reaching.vars x = some d := by rw [hu.vars, ht.vars, hd]
      exact .bind (.record hiu hd' ho b) fun _ u' hu' hiu' _ =>
        .pure hiu' (hu'.graph.evolves.types _ _ ho)

/-- **A variable that is declared can be read at every block**, and what is read is of its type. -/
theorem intact_read (hs : s.Intact) (hb : s.graph.block? b = some y)
    (hd : variableById? s.reaching.vars x = some d) :
    Succeeds s (read x b) fun o t => t.graph.typeOf? o = some d.ty :=
  intact_readWithin _ s b hs ⟨y, hb⟩ hd

/-! ## 6. Sealing -/

/-- **The waiting phis of a block get their operands.** -/
theorem intact_fillPending (ws : List (VarId × ValueId)) (s : Tracked) (hs : s.Intact)
    (hws : ∀ p ∈ ws, p ∈ s.reaching.pending.image b) (hnodup : ws.Nodup) :
    Ends (fillPending b ws) s (· = .endless) fun _ t => s.graph.Quiet t.graph ∧
      t.reaching.vars = s.reaching.vars ∧ t.Intact := by
  induction ws generalizing s with
  | nil => exact ⟨.refl _, rfl, hs⟩
  | cons p ws ih =>
    obtain ⟨x, v⟩ := p
    obtain ⟨hp, hws⟩ := List.forall_mem_cons.1 hws
    obtain ⟨hnot, hnodup⟩ := List.nodup_cons.1 hnodup
    obtain ⟨d, hd, hphi, -⟩ := hs.pending hp
    obtain ⟨z, hz, hzb, hty, hzphi⟩ := value_of_phi? hphi
    have hs₁ := hs.unawait b (x, v)
    have hread : ∀ q t, t.reaching.vars = s.reaching.vars → t.Intact →
        (∃ y, t.graph.block? q = some y) →
          Succeeds t (read x q) fun o u => u.graph.typeOf? o = some z.ty :=
      fun q t hvars hi ⟨y, hq⟩ => hty ▸ intact_read hi hq (hvars ▸ hd)
    have hfill := intact_fillWith hs₁ hz hzb hzphi (hs.free_unawait hp) fun q t ht =>
      hread q t ht.vars
    rw [fillPending_cons, Ends.bind_iff]
    unfold fillNext
    rw [Ends.bind_iff, ends_onTables, Ends.bind_iff, Ends.discard_iff]
    refine Ends.mono hfill fun o t ⟨ht, hi, _⟩ => ?_
    rw [ends_onTables]
    refine (ih { t with reaching := t.reaching.countCompleted } (hi.onTables rfl rfl rfl rfl)
      (fun p hp => ht.kept ?_) hnodup).mono fun _ u hu =>
        ⟨ht.graph.trans hu.1, hu.2.1.trans ht.vars, hu.2.2⟩
    refine (Multimap.mem_image_remove _ _ _ _ _).2 ⟨hws p hp, ?_⟩
    rintro ⟨-, rfl⟩
    exact hnot hp

/-- **A block that is not sealed yet can be sealed.** -/
theorem intact_sealBlock (hs : s.Intact) (hb : s.graph.block? b = some y)
    (hy : y.isSealed = false) :
    Ends (sealBlock b) s (· = .endless) fun _ t => t.reaching.vars = s.reaching.vars ∧
      t.Intact := by
  unfold sealBlock
  rw [Ends.bind_iff, ends_lift, Edit.ends_block hb, hy]
  simp only [Bool.false_eq_true, if_false]
  rw [Ends.bind_iff, Ends.get_iff, Ends.bind_iff]
  refine (intact_fillPending _ s hs (fun _ hp => hp) (hs.nodup b)).mono fun _ t h => ?_
  obtain ⟨ht, hvars, hi⟩ := h
  obtain ⟨y', hy', -⟩ := ht.block hb
  rw [ends_lift, Edit.ends_updateBlock hy']
  refine ⟨hvars, ?_⟩
  exact hi.onGraph (hi.graph.updateBlock b fun _ => rfl) (.updateBlock t.graph b _)
    (fun _ hp => hp) fun _ hu => hu

end Track

end BitFlow
