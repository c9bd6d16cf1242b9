import BitFlow.Proofs.Meaning.Grow

/-!
# Drafts

A draft is what a graph under construction was meant to be: for every value that ever existed what
it was made for, with the operands it was given then, and for every block what was last written
there. Removing phis changes the graph and not the draft.

Main statements: `Drawn.didRead`, `Drawn.sealed`, `Drawn.write` and their companions -- whatever is
done to the graph, it stays a drawing of its draft, and the meanings of the later draft are meanings
of the earlier one.
-/

namespace BitFlow

/-! ## 1. What values were made for -/

/-- What a value was made for. -/
inductive Role where
  /-- The content of a variable where a block is entered. -/
  | phi (b : BlockId) (x : VarId)
  /-- An instruction with the operands that it was given, and the block in which it counts as
      computed. -/
  | code (home : BlockId) (ty : Ty) (i : Instr)

/-- The roles of the values that ever existed. -/
abbrev Roles := ValueId → Option Role

namespace Roles

/-- The roles with one more. -/
def set (R : Roles) (v : ValueId) (r : Role) : Roles := fun w => if w = v then some r else R w

@[simp] theorem set_self (R : Roles) (v : ValueId) (r : Role) : R.set v r v = some r := if_pos rfl

theorem set_of_ne (R : Roles) {v w : ValueId} (r : Role) (h : w ≠ v) : R.set v r w = R w := if_neg h

/-- Roles are kept, and new ones are those of phis. -/
structure Grows (R R' : Roles) : Prop where
  keep : ∀ {v r}, R v = some r → R' v = some r
  code : ∀ {v b ty i}, R' v = some (.code b ty i) → R v = some (.code b ty i)

theorem Grows.refl (R : Roles) : R.Grows R := ⟨id, id⟩

theorem Grows.trans {R R' R'' : Roles} (h : R.Grows R') (h' : R'.Grows R'') : R.Grows R'' :=
  ⟨fun hv => h'.keep (h.keep hv), fun hv => h.code (h'.code hv)⟩

end Roles

/-- Every value has its role, and what has a role exists. -/
structure Covers (R : Roles) (s : Tracked) : Prop where
  phi : ∀ {v p}, s.graph.phi? v = some p → R v = some (.phi p.block p.var)
  instr : ∀ {v i}, s.graph.instr? v = some i → ∃ b ty j, R v = some (.code b ty j)
  known : ∀ {v r}, R v = some r → v.index < s.graph.values.size
  total : ∀ {v : ValueId}, v.index < s.graph.values.size → ∃ r, R v = some r
  declared : ∀ {v b x}, R v = some (.phi b x) → ∃ d, variableById? s.reaching.vars x = some d

theorem Covers.next {R : Roles} {s : Tracked} (h : Covers R s) : R s.graph.nextValue = none := by
  cases hr : R s.graph.nextValue with
  | none => rfl
  | some r => exact absurd (h.known hr) (Nat.lt_irrefl _)

/-- Among the values of a graph with one value more, the new one apart, are the old ones only. -/
theorem lt_of_ne_next {g : Graph} {n : Nat} (hn : n = g.values.size + 1) {v : ValueId}
    (hv : v ≠ g.nextValue) (h : v.index < n) : v.index < g.values.size := by
  have : v.index ≠ g.values.size := fun e => hv (by cases v; exact congrArg ValueId.mk e)
  omega

variable {R : Roles} {floor : Nat} {scope : VarId → Prop} {closing : Option BlockId}
  {s t : Tracked} {new : Option NewPhi} {made : List NewPhi}

/-- A step gives a role to the phi it makes. -/
theorem Step.covers (hst : Step floor scope closing s new t) (hk : Kept floor scope s t)
    (h : Covers R s) : ∃ R', R.Grows R' ∧ Covers R' t ∧
      ∀ n ∈ new, R' n.value = some (.phi n.block n.var) := by
  have hinstr : ∀ {v i}, t.graph.instr? v = some i → ∃ b ty j, R v = some (.code b ty j) := by
    intro v i hi
    have := hk.instr_home v
    rw [hi, Option.map_some] at this
    obtain ⟨j, hj, -⟩ := Option.map_eq_some_iff.1 this.symm
    exact h.instr hj
  cases new with
  | none =>
    refine ⟨R, .refl R, ⟨fun {v p} hp => ?_, hinstr, fun hv => ?_, fun {v} hv => ?_, fun hv => ?_⟩,
      fun n hn => by cases hn⟩
    · rcases hst.phi_origin hp with ⟨p₀, hp₀, e1, e2⟩ | e
      · rw [← e1, ← e2]
        exact h.phi hp₀
      · cases e
    · exact Nat.lt_of_lt_of_le (h.known hv) hk.size
    · rw [hst.size] at hv
      exact h.total hv
    · rw [hk.vars]
      exact h.declared hv
  | some n =>
    obtain ⟨hn, hsize⟩ := hst.new_value rfl
    have hnext : R n.value = none := hn ▸ h.next
    have hset : ∀ {v r}, R v = some r → R.set n.value (.phi n.block n.var) v = some r := by
      intro v r hv
      rw [R.set_of_ne _ fun e => ?_]
      · exact hv
      · rw [e, hnext] at hv
        cases hv
    refine ⟨R.set n.value (.phi n.block n.var), ⟨hset, fun {v b ty i} hv => ?_⟩,
      ⟨fun {v p} hp => ?_, fun {v i} hi => ?_, fun {v r} hv => ?_, fun {v} hv => ?_,
        fun {v b x} hv => ?_⟩, fun n' hn' => ?_⟩
    · by_cases e : v = n.value
      · rw [e, Roles.set_self] at hv
        cases hv
      · rwa [R.set_of_ne _ e] at hv
    · rcases hst.phi_origin hp with ⟨p₀, hp₀, e1, e2⟩ | e
      · rw [← e1, ← e2]
        exact hset (h.phi hp₀)
      · cases e
        exact Roles.set_self _ _ _
    · obtain ⟨b, ty, j, hj⟩ := hinstr hi
      exact ⟨b, ty, j, hset hj⟩
    · rw [hsize]
      by_cases e : v = n.value
      · rw [e, hn]
        exact Nat.lt_succ_self _
      · rw [R.set_of_ne _ e] at hv
        exact Nat.lt_succ_of_lt (h.known hv)
    · by_cases e : v = n.value
      · exact ⟨_, by rw [e]; exact Roles.set_self _ _ _⟩
      · obtain ⟨r, hr⟩ := h.total (lt_of_ne_next hsize (hn ▸ e) hv)
        exact ⟨r, hset hr⟩
    · rw [hk.vars]
      by_cases e : v = n.value
      · rw [e, Roles.set_self] at hv
        cases hv
        exact hst.new_declared rfl
      · rw [R.set_of_ne _ e] at hv
        exact h.declared hv
    · cases hn'
      exact Roles.set_self _ _ _

/-- **A chain of steps gives a role to every phi it makes.** -/
theorem Steps.covers (hst : Steps floor scope closing s made t) (hs : Sane closing s)
    (hf : floor ≤ s.graph.values.size) (h : Covers R s) : ∃ R', R.Grows R' ∧ Covers R' t ∧
      ∀ n ∈ made, R' n.value = some (.phi n.block n.var) := by
  induction hst generalizing R with
  | refl s => exact ⟨R, .refl R, h, fun n hn => by cases hn⟩
  | cons hst _ ih =>
    have hk := Step.kept hs hf hst
    obtain ⟨R₁, g1, c1, n1⟩ := hst.covers hk h
    obtain ⟨R₂, g2, c2, n2⟩ := ih (hs.step hst) (Nat.le_trans hf hk.size) c1
    refine ⟨R₂, g1.trans g2, c2, fun n hn => ?_⟩
    rcases List.mem_append.1 hn with hn | hn
    · exact g2.keep (n1 n (Option.mem_toList.1 hn))
    · exact n2 n hn

/-! ## 2. Drawings -/

/-- What a graph under construction was meant to be. -/
structure Draft where
  roles : Roles
  writes : Writes

/-- The block in which a value of the draft gets its content. -/
def Draft.homeOf (d : Draft) (entry : BlockId) (v : ValueId) : BlockId :=
  match d.roles v with
  | some (.phi b _) => b
  | some (.code b _ _) => b
  | none => entry

theorem Draft.homeOf_phi {d : Draft} {v : ValueId} {b : BlockId} {x : VarId}
    (h : d.roles v = some (.phi b x)) (entry : BlockId) : d.homeOf entry v = b := by
  unfold homeOf
  rw [h]

theorem Draft.homeOf_code {d : Draft} {v : ValueId} {b : BlockId} {ty : Ty} {i : Instr}
    (h : d.roles v = some (.code b ty i)) (entry : BlockId) : d.homeOf entry v = b := by
  unfold homeOf
  rw [h]

/-- Nothing yet. -/
def Draft.empty : Draft := ⟨fun _ => none, fun _ _ => none⟩

/-- **The meaning is one of the draft**: it fits the control flow, its phis hold what variables
    held, and instructions count as computed where the draft says. -/
structure Models {T : Type} (d : Draft) (s : Tracked) (m : Meaning T) : Prop where
  fits : Fits m d.writes none s
  phi : ∀ {v b x}, d.roles v = some (.phi b x) → m.IsPhi v b x
  code : ∀ {v b ty i}, d.roles v = some (.code b ty i) → m.home v = b

/-- **Graph and tables are a drawing of the draft**: they are consistent with nothing half done,
    and right under every meaning of the draft. -/
structure Drawn (d : Draft) (s : Tracked) : Prop where
  sane : Sane none s
  idle : s.reaching.filling = []
  covers : Covers d.roles s
  /-- A phi of a sealed block has operands. -/
  fed : ∀ {v p}, s.graph.phi? v = some p → s.graph.isSealed p.block = true →
    s.graph.preds p.block ≠ []
  writes_known : ∀ {b x o}, d.writes b x = some o → s.graph.Knows o
  writes_avail : ∀ {T : Type} {m : Meaning T}, Models d s m →
    ∀ {b x o}, d.writes b x = some o → m.Avail o b
  sound : ∀ {T : Type} {m : Meaning T}, Models d s m → Sound m d.writes s

/-- What a later stage of a construction keeps of an earlier one: roles, and that its meanings are
    meanings of the earlier one. -/
structure Later (d : Draft) (s : Tracked) (d' : Draft) (s' : Tracked) : Prop where
  size : s.graph.values.size ≤ s'.graph.values.size
  roles : ∀ {v r}, d.roles v = some r → d'.roles v = some r
  models : ∀ {T : Type} {m : Meaning T}, Models d' s' m → Models d s m

theorem Later.refl (d : Draft) (s : Tracked) : Later d s d s := ⟨Nat.le_refl _, id, id⟩

theorem Later.trans {d d' d'' : Draft} {s s' s'' : Tracked} (h : Later d s d' s')
    (h' : Later d' s' d'' s'') : Later d s d'' s'' :=
  ⟨Nat.le_trans h.size h'.size, fun hv => h'.roles (h.roles hv),
    fun hm => h.models (h'.models hm)⟩

theorem Models.phisHold {T : Type} {d : Draft} {m : Meaning T} (h : Models d s m)
    (hc : Covers d.roles s) : PhisHold m s := fun hp => h.phi (hc.phi hp)

/-! ## 3. The start -/

/-- The empty graph is a drawing of the empty draft. -/
theorem Drawn.fresh (name : String) (vars : List Variable) (nameValues : Bool) :
    Drawn .empty ⟨.fresh name, .fresh vars nameValues⟩ where
  sane := .fresh name vars nameValues
  idle := rfl
  covers := ⟨fun h => (by cases h), fun h => (by cases h), fun h => (by cases h),
    fun h => absurd h (Nat.not_lt_zero _), fun h => (by cases h)⟩
  fed := fun h => by cases h
  writes_known := fun h => by cases h
  writes_avail := fun {_ _} _ {_ _ _} h => by cases h
  sound := fun _ =>
    ⟨fun h => (by cases h), fun _ => rfl, fun h => (by cases h), fun h => (by cases h)⟩

/-! ## 4. Reading and sealing -/

namespace Drawn

variable {d : Draft}

/-- A chain of steps draws the same draft, with roles for the phis it makes. -/
theorem chain (h : Drawn d s) (hs : Sane closing s) (hst : Steps floor scope closing s made t)
    (hf : floor ≤ s.graph.values.size) : ∃ R', d.roles.Grows R' ∧ Covers R' t ∧
      ∀ {T : Type} {m : Meaning T}, Fits m d.writes closing t →
        (∀ {v b x}, R' v = some (.phi b x) → m.IsPhi v b x) →
        (∀ {v b ty i}, R' v = some (.code b ty i) → m.home v = b) →
        Models d s m ∧ Sound m d.writes t := by
  obtain ⟨R', hg, hc, hmade⟩ := hst.covers hs hf h.covers
  refine ⟨R', hg, hc, fun {T m} hfit hphi hcode => ?_⟩
  have hk := hst.kept hs hf
  have hfit' : Fits m d.writes closing s := .of_kept hk hfit
  have hm : Models d s m :=
    ⟨hfit'.opened, fun hv => hphi (hg.keep hv), fun hv => hcode (hg.keep hv)⟩
  exact ⟨hm, (hst.sound hs hf hfit' (hm.phisHold h.covers) (fun n hn => hphi (hmade n hn))
    (h.sound hm)).1⟩

theorem fed_steps (h : Drawn d s) (hs : Sane closing s)
    (hst : Steps floor scope closing s made t) (hf : floor ≤ s.graph.values.size) {v : ValueId}
    {p : OwnedPhi} (hp : t.graph.phi? v = some p) (hsealed : t.graph.isSealed p.block = true) :
    t.graph.preds p.block ≠ [] := by
  have hk := hst.kept hs hf
  rw [hk.isSealed] at hsealed
  rw [hk.preds]
  rcases hst.phi_origin hs hf hp with ⟨p₀, hp₀, e, -⟩ | ⟨-, hfed⟩
  · rw [← e] at hsealed ⊢
    exact h.fed hp₀ hsealed
  · exact hfed hsealed

/-- **A chain of steps leads from a drawing to a drawing.** -/
theorem steps (h : Drawn d s) (hst : Steps floor scope none s made t)
    (hf : floor ≤ s.graph.values.size) (hidle : t.reaching.filling = []) :
    ∃ R', d.roles.Grows R' ∧ Drawn ⟨R', d.writes⟩ t ∧ Later d s ⟨R', d.writes⟩ t := by
  obtain ⟨R', hg, hc, hm⟩ := h.chain h.sane hst hf
  have hk := hst.kept h.sane hf
  refine ⟨R', hg, ⟨hst.sane h.sane, hidle, hc, h.fed_steps h.sane hst hf,
    fun hw => (h.writes_known hw).mono hk.size, fun {T m} hd => ?_, fun {T m} hd => ?_⟩,
    hk.size, hg.keep, fun {T m} hd => ?_⟩
  · exact h.writes_avail (hm hd.fits hd.phi hd.code).1
  · exact (hm hd.fits hd.phi hd.code).2
  · exact (hm hd.fits hd.phi hd.code).1

/-- **Reading draws the same draft**, and the answer holds what the variable holds there. -/
theorem didRead (h : Drawn d s) {x : VarId} {b : BlockId} {o : Operand}
    (hr : Track.DidRead none x b s o t) :
    ∃ R', d.roles.Grows R' ∧ Drawn ⟨R', d.writes⟩ t ∧ Later d s ⟨R', d.writes⟩ t ∧
      ∀ {T : Type} {m : Meaning T}, Models ⟨R', d.writes⟩ t m → m.Avail o b ∧
        ∀ π, m.Path (b :: π) → m.mean o (b :: π) = m.content d.writes b π x := by
  obtain ⟨made, hst⟩ := hr.steps
  obtain ⟨R', hg, hd, hl⟩ := h.steps hst (Nat.le_refl _) (hr.filling.trans h.idle)
  exact ⟨R', hg, hd, hl, fun hm => (hd.sound hm).reached hd.sane.steady hr.answer⟩

/-- **Sealing draws the same draft.** -/
theorem sealed (h : Drawn d s) {b : BlockId} {y : Block} {u : Tracked}
    (hb : s.graph.block? b = some y) (hst : Steps 0 (fun _ => True) (some b) s made u)
    (hfill : u.reaching.filling = s.reaching.filling)
    (ht : Sane none { u with graph := u.graph.withSeal b })
    (hgone : s.graph.preds b = [] → ∀ v p, u.graph.phi? v = some p → p.block ≠ b) :
    ∃ R', d.roles.Grows R' ∧ Drawn ⟨R', d.writes⟩ { u with graph := u.graph.withSeal b } ∧
      Later d s ⟨R', d.writes⟩ { u with graph := u.graph.withSeal b } := by
  have hs := h.sane.closing b
  have hk := hst.kept hs (Nat.zero_le _)
  obtain ⟨y', hy', -⟩ := hk.block hb
  obtain ⟨R', hg, hc, hm⟩ := h.chain hs hst (Nat.zero_le _)
  have hfed : ∀ {v p}, u.graph.phi? v = some p → (u.graph.withSeal b).isSealed p.block = true →
      (u.graph.withSeal b).preds p.block ≠ [] := by
    intro v p hp hsealed
    rw [Graph.preds_withSeal, hk.preds]
    by_cases e : b = p.block
    · exact fun hnil => hgone (by rw [e]; exact hnil) v p hp e.symm
    · rw [Graph.isSealed_withSeal hy', if_neg e] at hsealed
      rw [← hk.preds]
      exact h.fed_steps hs hst (Nat.zero_le _) hp hsealed
  refine ⟨R', hg, ⟨ht, hfill.trans h.idle, ⟨hc.phi, hc.instr, hc.known, hc.total,
    hc.declared⟩, hfed,
    fun hw => (h.writes_known hw).mono hk.size, fun {T m} hd => ?_, fun {T m} hd => ?_⟩,
    hk.size, hg.keep, fun {T m} hd => ?_⟩
  · exact h.writes_avail (hm (.of_withSeal hy' hd.fits) hd.phi hd.code).1
  · exact (hm (.of_withSeal hy' hd.fits) hd.phi hd.code).2.regraph (fun _ => rfl) rfl
  · exact (hm (.of_withSeal hy' hd.fits) hd.phi hd.code).1

/-- Names and counts are no part of the draft. -/
theorem alike (h : Drawn d s) (ha : s.Alike t) : Drawn d t ∧ Later d s d t := by
  have hst : Steps 0 (fun _ => True) none s [] t := .single (.alike ha)
  have hk := hst.kept h.sane (Nat.zero_le _)
  have hfits : ∀ {T : Type} {m : Meaning T}, Models d t m → Models d s m := fun hm =>
    ⟨.of_kept hk hm.fits, hm.phi, hm.code⟩
  refine ⟨⟨h.sane.alike ha, ha.filling.trans h.idle, ⟨fun {v p} hp => ?_, fun {v i} hi => ?_,
    fun hv => Nat.lt_of_lt_of_le (h.covers.known hv) hk.size,
    fun hv => h.covers.total (Nat.lt_of_lt_of_eq hv ha.graph.size),
    fun hv => by rw [ha.vars]; exact h.covers.declared hv⟩,
    h.fed_steps h.sane hst (Nat.zero_le _),
    fun hw => (h.writes_known hw).mono hk.size, fun hm => h.writes_avail (hfits hm),
    fun hm => ?_⟩, hk.size, id, hfits⟩
  · rw [ha.graph.phi?] at hp
    exact h.covers.phi hp
  · rw [ha.graph.instr?] at hi
    exact h.covers.instr hi
  · exact (hst.sound h.sane (Nat.zero_le _) (hfits hm).fits ((hfits hm).phisHold h.covers)
      (fun n hn => by cases hn) (h.sound (hfits hm))).1

/-! ## 5. Growing -/

/-- A change of the graph that leaves values and forwards alone. -/
theorem regraph (h : Drawn d s) {g : Graph} (hs : Sane none { s with graph := g })
    (hsize : g.values.size = s.graph.values.size) (hphi : ∀ v, g.phi? v = s.graph.phi? v)
    (hinstr : ∀ v, g.instr? v = s.graph.instr? v) (hf : g.forwards = s.graph.forwards)
    (hsealed : ∀ b, g.isSealed b = s.graph.isSealed b)
    (hpreds : ∀ q b, q ∈ s.graph.preds b → q ∈ g.preds b)
    (hfits : ∀ {T : Type} {m : Meaning T}, Fits m d.writes none { s with graph := g } →
      Fits m d.writes none s) :
    Drawn d { s with graph := g } ∧ Later d s d { s with graph := g } := by
  have hmodels : ∀ {T : Type} {m : Meaning T}, Models d { s with graph := g } m →
      Models d s m := fun hm => ⟨hfits hm.fits, hm.phi, hm.code⟩
  refine ⟨⟨hs, h.idle, ⟨fun {v p} hp => ?_, fun {v i} hi => ?_, fun hv => ?_,
    fun hv => h.covers.total (Nat.lt_of_lt_of_eq hv hsize), h.covers.declared⟩,
    fun {v p} hp hb hnil => ?_, fun hw => (h.writes_known hw).mono (Nat.le_of_eq hsize.symm),
    fun hm => h.writes_avail (hmodels hm), fun hm => (h.sound (hmodels hm)).regraph hphi hf⟩,
    Nat.le_of_eq hsize.symm, id, hmodels⟩
  · change g.phi? v = some p at hp
    rw [hphi] at hp
    exact h.covers.phi hp
  · change g.instr? v = some i at hi
    rw [hinstr] at hi
    exact h.covers.instr hi
  · exact Nat.lt_of_lt_of_eq (h.covers.known hv) hsize.symm
  · change g.phi? v = some p at hp
    change g.isSealed p.block = true at hb
    change g.preds p.block = [] at hnil
    rw [hphi] at hp
    rw [hsealed] at hb
    obtain ⟨q, hq⟩ := List.exists_mem_of_ne_nil _ (h.fed hp hb)
    have := hpreds q _ hq
    rw [hnil] at this
    cases this

theorem pushBlock (h : Drawn d s) (label : String) (kind : BlockKind) :
    Drawn d { s with graph := s.graph.pushBlock label kind } ∧
      Later d s d { s with graph := s.graph.pushBlock label kind } :=
  h.regraph (h.sane.pushBlock label kind) rfl (fun _ => rfl) (fun _ => rfl) rfl
    (s.graph.isSealed_pushBlock label kind)
    (fun q b hq => by rw [Graph.preds_pushBlock]; exact hq) .of_pushBlock

theorem link (h : Drawn d s) {p b : BlockId} {z y : Block} (hp : s.graph.block? p = some z)
    (hb : s.graph.block? b = some y) (hy : y.isSealed = false ∨ p ∈ y.preds)
    {cond : Option Operand} (hc : ∀ o ∈ cond, s.graph.Knows o) :
    Drawn d { s with graph := s.graph.link p cond b } ∧
      Later d s d { s with graph := s.graph.link p cond b } :=
  h.regraph (h.sane.link hp hb hy hc) (s.graph.size_link p cond b) (s.graph.phi?_link p cond b)
    (s.graph.instr?_link p cond b) (s.graph.forwards_link p cond b) (s.graph.isSealed_link p cond b)
    (fun _ _ hq => (Graph.mem_preds_link hb).2 (.inl hq)) (.of_link hb hy)

/-- **A new instruction**, counted as computed in `home`. -/
theorem withInstr (h : Drawn d s) {b : BlockId} {y : Block} (hb : s.graph.block? b = some y)
    (place : Nat) (ty : Ty) (origin : Origin) {i : Instr}
    (hi : ∀ o ∈ i.operands, s.graph.Knows o) (home : BlockId) :
    Drawn ⟨d.roles.set s.graph.nextValue (.code home ty i), d.writes⟩
        { s with graph := s.graph.withInstr b place ty origin i } ∧
      Later d s ⟨d.roles.set s.graph.nextValue (.code home ty i), d.writes⟩
        { s with graph := s.graph.withInstr b place ty origin i } := by
  have hsize := s.graph.size_withInstr b place ty origin i
  have hset : ∀ {v r}, d.roles v = some r →
      d.roles.set s.graph.nextValue (.code home ty i) v = some r := by
    intro v r hv
    rw [Roles.set_of_ne _ _ fun e => ?_]
    · exact hv
    · rw [e, h.covers.next] at hv
      cases hv
  have hmodels : ∀ {T : Type} {m : Meaning T},
      Models ⟨d.roles.set s.graph.nextValue (.code home ty i), d.writes⟩
        { s with graph := s.graph.withInstr b place ty origin i } m → Models d s m := fun hm =>
    ⟨.of_withInstr hm.fits, fun hv => hm.phi (hset hv), fun hv => hm.code (hset hv)⟩
  have hle : s.graph.values.size ≤ (s.graph.withInstr b place ty origin i).values.size := by
    rw [hsize]
    exact Nat.le_succ _
  refine ⟨⟨h.sane.withInstr hb place ty origin hi, h.idle, ⟨fun {v p} hp => ?_,
    fun {v j} hj => ?_, fun {v r} hv => ?_, fun {v} hv => ?_, fun {v c x} hv => ?_⟩,
    fun {v p} hp hb => ?_,
    fun hw => (h.writes_known hw).mono hle,
    fun hm => h.writes_avail (hmodels hm), fun hm => (h.sound (hmodels hm)).regraph
      (s.graph.phi?_withInstr b place ty origin i) (s.graph.forwards_withInstr b place ty origin i)⟩,
    hle, hset, hmodels⟩
  · change (s.graph.withInstr b place ty origin i).phi? v = some p at hp
    rw [Graph.phi?_withInstr] at hp
    exact hset (h.covers.phi hp)
  · change (s.graph.withInstr b place ty origin i).instr? v = some j at hj
    rw [Graph.instr?_withInstr] at hj
    split at hj
    · rename_i e
      rw [e]
      exact ⟨home, ty, i, Roles.set_self _ _ _⟩
    · obtain ⟨b', ty', j', hj'⟩ := h.covers.instr hj
      exact ⟨b', ty', j', hset hj'⟩
  · change v.index < (s.graph.withInstr b place ty origin i).values.size
    rw [hsize]
    by_cases e : v = s.graph.nextValue
    · rw [e]
      exact Nat.lt_succ_self _
    · change d.roles.set s.graph.nextValue (.code home ty i) v = some r at hv
      rw [Roles.set_of_ne _ _ e] at hv
      exact Nat.lt_succ_of_lt (h.covers.known hv)
  · by_cases e : v = s.graph.nextValue
    · exact ⟨_, by rw [e]; exact Roles.set_self _ _ _⟩
    · obtain ⟨r, hr⟩ := h.covers.total (lt_of_ne_next hsize e hv)
      exact ⟨r, hset hr⟩
  · change d.roles.set s.graph.nextValue (.code home ty i) v = some (.phi c x) at hv
    by_cases e : v = s.graph.nextValue
    · rw [e, Roles.set_self] at hv
      cases hv
    · rw [Roles.set_of_ne _ _ e] at hv
      exact h.covers.declared hv
  · change (s.graph.withInstr b place ty origin i).phi? v = some p at hp
    change (s.graph.withInstr b place ty origin i).isSealed p.block = true at hb
    show (s.graph.withInstr b place ty origin i).preds p.block ≠ []
    rw [Graph.phi?_withInstr] at hp
    rw [Graph.isSealed_withInstr] at hb
    rw [Graph.preds_withInstr]
    exact h.fed hp hb

/-- **A write** to a block that has no successor yet, of an operand that is available there. -/
theorem write (h : Drawn d s) {x : VarId} {b : BlockId} {o : Operand}
    (hb : ∀ c, b ∉ s.graph.preds c) (hk : s.graph.Knows o)
    (ho : ∀ {T : Type} {m : Meaning T}, Models d s m → m.Avail o b) :
    Drawn ⟨d.roles, d.writes.set b x o⟩ (s.recorded x b o) ∧
      Later d s ⟨d.roles, d.writes.set b x o⟩ (s.recorded x b o) := by
  have hmodels : ∀ {T : Type} {m : Meaning T},
      Models ⟨d.roles, d.writes.set b x o⟩ (s.recorded x b o) m → Models d s m := fun hm =>
    ⟨.of_write hb hm.fits, hm.phi, hm.code⟩
  refine ⟨⟨h.sane.recorded x b hk, h.idle, ⟨h.covers.phi, h.covers.instr,
    h.covers.known, h.covers.total, h.covers.declared⟩, h.fed,
    fun {c z a} hw => ?_, fun {T m} hm {c z a} hw => ?_, fun hm => ?_⟩, Nat.le_refl _, id, hmodels⟩
  · change d.writes.set b x o c z = some a at hw
    unfold Writes.set at hw
    split at hw
    · cases hw
      exact hk
    · exact h.writes_known hw
  · change d.writes.set b x o c z = some a at hw
    unfold Writes.set at hw
    split at hw
    · rename_i e
      cases hw
      rw [e.1]
      exact ho (hmodels hm)
    · exact h.writes_avail (hmodels hm) hw
  · exact (h.sound (hmodels hm)).write (ho (hmodels hm))

end Drawn

end BitFlow
