import BitFlow.Proofs.Reaching.Removal

/-!
# Reading variables

Reading a variable is a chain of steps that records an answer at the block it was asked for. It
makes phis of that variable only and leaves all that existed before in place, and where every chain
of single predecessors has an end, so has the search.

Main statements: `Track.ends_fillWith` -- a phi gets its operands; `Track.ends_readWithin` and
`Track.ends_read` -- a variable is read.
-/

namespace BitFlow

/-! ## 1. How long a search can be -/

namespace Graph

/-- Chains of single predecessors are shorter than the store of blocks is long. -/
def Grounded (g : Graph) : Prop :=
  ∃ rank : BlockId → Nat, (∀ b, rank b ≤ g.blocks.size) ∧
    ∀ b q, g.isSealed b = true → g.preds b = [q] → rank q < rank b

theorem blocks_size_congr {g g' : Graph} (h : ∀ b, g'.shape b = g.shape b) :
    g'.blocks.size = g.blocks.size := by
  have hlt : ∀ (g : Graph) (n : Nat), n < g.blocks.size ↔ (g.shape ⟨n⟩).isSome = true := by
    intro g n
    unfold shape block?
    simp
  have hiff : ∀ n, n < g'.blocks.size ↔ n < g.blocks.size := by
    intro n
    rw [hlt, hlt, h]
  have h1 := hiff g.blocks.size
  have h2 := hiff g'.blocks.size
  omega

theorem Grounded.congr {g g' : Graph} (hg : g.Grounded) (h : ∀ b, g'.shape b = g.shape b) :
    g'.Grounded := by
  obtain ⟨rank, h1, h2⟩ := hg
  refine ⟨rank, fun b => by rw [blocks_size_congr h]; exact h1 b, fun b q hb hq => ?_⟩
  rw [isSealed_congr (h b)] at hb
  rw [preds_congr (h b)] at hq
  exact h2 b q hb hq

end Graph

namespace Tracked

/-- The number of blocks at whose end nothing is recorded for `x`. -/
def unrecorded (s : Tracked) (x : VarId) : Nat :=
  ((List.range s.graph.blocks.size).filter
    fun n => (s.reaching.defs.get? (⟨n⟩, x)).isNone).length

theorem unrecorded_le (s : Tracked) (x : VarId) : s.unrecorded x ≤ s.graph.blocks.size := by
  unfold unrecorded
  exact Nat.le_trans (List.length_filter_le _ _) (Nat.le_of_eq List.length_range)

/-- Recording something at a block that had nothing leaves less unrecorded. -/
theorem unrecorded_lt {s t : Tracked} {x : VarId} {b : BlockId} {y : Block}
    (hy : s.graph.block? b = some y) (hb : t.graph.blocks.size = s.graph.blocks.size)
    (h : ∀ c, s.reaching.defs.get? (c, x) ≠ none → t.reaching.defs.get? (c, x) ≠ none)
    (hn : s.reaching.defs.get? (b, x) = none) (ht : t.reaching.defs.get? (b, x) ≠ none) :
    t.unrecorded x < s.unrecorded x := by
  unfold unrecorded
  rw [hb]
  have hsub : ∀ n, (t.reaching.defs.get? (⟨n⟩, x)).isNone = true →
      (s.reaching.defs.get? (⟨n⟩, x)).isNone = true := by
    intro n hn
    rw [Option.isNone_iff_eq_none] at hn ⊢
    by_contra hc
    exact h ⟨n⟩ hc hn
  have hlt := Graph.index_lt_of_block? hy
  refine Nat.lt_of_le_of_ne (List.monotone_filter_right _ hsub).length_le fun e => ?_
  have heq := (List.monotone_filter_right (List.range s.graph.blocks.size) hsub).eq_of_length e
  have hmem : b.index ∈ (List.range s.graph.blocks.size).filter
      fun n => (s.reaching.defs.get? (⟨n⟩, x)).isNone := by
    rw [List.mem_filter, List.mem_range]
    exact ⟨hlt, by rw [hn]; rfl⟩
  rw [← heq, List.mem_filter] at hmem
  exact ht (Option.isNone_iff_eq_none.1 hmem.2)

/-- A search for `x` from `b` may fail to end, or `n` blocks are enough for it. -/
def Fueled (R : Fault → Prop) (s : Tracked) (x : VarId) (b : BlockId) (n : Nat) : Prop :=
  R .endless ∨ ∃ rank : BlockId → Nat, (∀ b, rank b ≤ s.graph.blocks.size) ∧
    (∀ b q, s.graph.isSealed b = true → s.graph.preds b = [q] → rank q < rank b) ∧
    s.unrecorded x * (s.graph.blocks.size + 1) + rank b < n

end Tracked

/-- The phi `v` joins those being filled. -/
def Tracked.busy (s : Tracked) (v : ValueId) : Tracked :=
  { s with reaching := { s.reaching with filling := v :: s.reaching.filling } }

namespace Track

variable {s t : Tracked} {R : Fault → Prop} {floor : Nat} {closing : Option BlockId}

/-! ## 2. New phis and their names -/

theorem ends_declaration {Q : Variable → Tracked → Prop} {x : VarId}
    (hR : variableById? s.reaching.vars x = none → R (.unknownVariable x))
    (h : ∀ d, variableById? s.reaching.vars x = some d → Q d s) :
    Ends (declaration x) s R Q := by
  unfold declaration
  rw [Ends.bind_iff, Ends.get_iff]
  cases hd : variableById? s.reaching.vars x with
  | none => exact hR hd
  | some d => exact h d hd

/-- Naming a value changes nothing else. -/
theorem ends_nameAfter {x : VarId} {o : Operand} (ho : s.graph.Knows o)
    (hR : variableById? s.reaching.vars x = none → R (.unknownVariable x)) :
    Ends (nameAfter x o) s R fun _ t => s.Alike t := by
  unfold nameAfter
  rw [Ends.bind_iff, Ends.get_iff]
  split
  · cases o with
    | lit c => exact .refl s
    | undef ty => exact .refl s
    | value v =>
      obtain ⟨z, hz⟩ := Graph.exists_value? (ho v rfl)
      rw [Ends.bind_iff, ends_lift, Edit.ends_value hz]
      split
      · rw [Ends.bind_iff, Ends.get_iff, Ends.bind_iff]
        refine ends_declaration hR fun d _ => ?_
        rw [Ends.bind_iff, ends_onTables, ends_lift]
        unfold Edit.setName
        rw [Edit.ends_updateValue hz]
        exact ⟨.updateValue s.graph v fun z => ⟨rfl, rfl, rfl, rfl⟩, rfl, rfl, rfl, rfl, rfl⟩
      · exact .refl s
  · exact .refl s

/-- Naming a value is not counted. -/
theorem keeps_stats_nameAfter (x : VarId) (o : Operand) :
    Keeps (fun s => s.reaching.stats) (nameAfter x o) := by
  have hedit : ∀ {α : Type} (x : Edit α),
      Keeps (fun s => s.reaching.stats) (liftM x : Track α) := fun x s =>
    (ends_lift x).2 (.of_run fun _ _ _ => rfl)
  refine Keeps.get.bind fun s => ?_
  split
  · split
    · refine (hedit _).bind fun y => ?_
      split
      · refine Keeps.get.bind fun t => Keeps.bind ?_ fun d => ?_
        · exact fun t => ends_declaration (fun _ => trivial) fun _ _ => rfl
        · exact Keeps.bind (.modify fun _ => rfl) fun _ => hedit _
      · exact .pure _
    · exact .pure _
  · exact .pure _

/-- A new phi, up to its name. -/
theorem ends_newPhi {b : BlockId} {y : Block} {x : VarId} (hb : s.graph.block? b = some y)
    (hR : variableById? s.reaching.vars x = none → R (.unknownVariable x)) :
    Ends (newPhi b x) s R fun v t => v = s.graph.nextValue ∧
      ∃ d, variableById? s.reaching.vars x = some d ∧
        Tracked.Alike ⟨s.graph.withPhi b x d.ty, s.reaching⟩ t := by
  unfold newPhi
  rw [Ends.bind_iff]
  refine ends_declaration hR fun d hd => ?_
  unfold Edit.appendPhi
  rw [Ends.bind_iff, ends_lift, Ends.bind_iff, Edit.ends_block hb, Ends.bind_iff, Ends.get_iff,
    Ends.bind_iff, Ends.set_iff, Ends.bind_iff, Ends.modify_iff, Ends.pure_iff, Ends.bind_iff,
    ends_onTables, Ends.bind_iff]
  have hknow : (s.graph.withPhi b x d.ty).Knows (.value s.graph.nextValue) := by
    intro w hw
    cases hw
    rw [Graph.size_withPhi]
    exact Nat.lt_succ_self _
  refine Ends.mono (ends_nameAfter (s := ⟨s.graph.withPhi b x d.ty, s.reaching.countCreated⟩)
    hknow hR) fun _ t ht => ?_
  refine ⟨rfl, d, hd, Tracked.Alike.trans ?_ ht⟩
  exact ⟨.refl _, rfl, rfl, rfl, rfl, rfl⟩

/-! ## 3. Filling a phi -/

/-- **What reading `x` at `b` leaves**: a chain of steps above all that was there, the answer
    recorded at `b`, nothing left half filled, and no phi that is not needed. -/
structure DidRead (closing : Option BlockId) (x : VarId) (b : BlockId) (s : Tracked) (o : Operand)
    (t : Tracked) : Prop where
  steps : ∃ made, Steps s.graph.values.size (· = x) closing s made t
  filling : t.reaching.filling = s.reaching.filling
  answer : t.reached x b = some o
  trim : s.Trim → t.Trim

theorem DidRead.sane {x : VarId} {b : BlockId} {o : Operand} (h : DidRead closing x b s o t)
    (hs : Sane closing s) : Sane closing t := by
  obtain ⟨made, hst⟩ := h.steps
  exact hst.sane hs

theorem DidRead.kept {x : VarId} {b : BlockId} {o : Operand} (h : DidRead closing x b s o t)
    (hs : Sane closing s) : Kept s.graph.values.size (· = x) s t := by
  obtain ⟨made, hst⟩ := h.steps
  exact hst.kept hs (Nat.le_refl _)

/-- Who waited before a read still waits. -/
theorem DidRead.waits {x : VarId} {b : BlockId} {o : Operand} (h : DidRead closing x b s o t)
    (hs : Sane closing s) {c : BlockId} {z : VarId} {w : ValueId}
    (hw : (z, w) ∈ s.reaching.pending.image c) : (z, w) ∈ t.reaching.pending.image c := by
  obtain ⟨⟨ty, hp⟩, -⟩ := hs.pending hw
  exact (h.kept hs).waits (Graph.attached_of_phi? hp).index_lt hw

/-- **A phi gets its operands.** `v` is a phi without operands; with `v` among those being filled,
    graph and tables are consistent, and `read` finds the content of its variable at every
    predecessor. Where there is no predecessor the phi is gone afterwards. -/
theorem ends_fillWith {read : BlockId → Track Operand} {v : ValueId} {b : BlockId} {ty : Ty}
    {x : VarId} (hv : s.graph.phi? v = some ⟨b, ty, x, []⟩) (hf : v ∉ s.reaching.filling)
    (hs : Sane closing (s.busy v)) (hfloor : floor ≤ v.index) (hapart : s.graph.Apart floor)
    (hread : ∀ t made q,
      Steps floor (· = x) closing (s.busy v) made t → q ∈ s.graph.preds b →
        Ends (read q) t R (DidRead closing x q t)) :
    Ends (fillWith read v) s R fun o t => ∃ made,
      Steps floor (· = x) closing (s.busy v) made t ∧
      t.reaching.filling = s.reaching.filling ∧ o = t.graph.resolve (.value v) ∧
      (∀ c z w, (z, w) ∈ s.reaching.pending.image c → (z, w) ∈ t.reaching.pending.image c) ∧
      (s.graph.preds b = [] → made = [] ∧ t.graph.phi? v = none) ∧
      ((s.busy v).Trim → t.Trim) := by
  obtain ⟨z, hz, hzb, -, -⟩ := Graph.phi?_eq_some.1 hv
  obtain ⟨y, hy⟩ : ∃ y, s.graph.block? b = some y := hs.steady.orderly.owner_known hz hzb
  have hpreds : s.graph.preds b = y.preds := Graph.preds_of_block? hy
  have hvlt : v.index < s.graph.values.size := Graph.index_lt_of_value? hz
  unfold fillWith
  rw [Ends.bind_iff, ends_lift, Edit.ends_value hz]
  simp only [hzb]
  rw [Ends.bind_iff, ends_lift, Edit.ends_block hy, Ends.bind_iff, ends_onTables, Ends.bind_iff]
  change Ends (y.preds.forM _) (s.busy v) R _
  -- after some rounds the phi has an operand for each predecessor gone through
  refine (Ends.forM (fun done t =>
    (∃ made, Steps floor (· = x) closing (s.busy v) made t ∧ (done = [] → made = [])) ∧
    t.reaching.filling = v :: s.reaching.filling ∧
    (∀ c z w, (z, w) ∈ s.reaching.pending.image c → (z, w) ∈ t.reaching.pending.image c) ∧
    ((s.busy v).Trim → t.Trim) ∧
    ∃ p, t.graph.phi? v = some p ∧ p.block = b ∧ p.var = x ∧ p.sources = done)
      y.preds ?_ ?_).mono ?_
  · exact ⟨⟨[], .refl (s.busy v), fun _ => rfl⟩, rfl, fun _ _ _ hw => hw, id, _, hv, rfl, rfl, rfl⟩
  · intro done q rest t hlist hinv
    obtain ⟨⟨made, hst, -⟩, hfill, hwaits, htrim, p, hp, hpb, hpx, hsrc⟩ := hinv
    have ht := hst.sane hs
    have hq : q ∈ s.graph.preds b := by
      rw [hpreds, hlist]
      exact List.mem_append_right done List.mem_cons_self
    rw [Ends.bind_iff]
    refine (hread t made q hst hq).mono fun o u hdid => ?_
    have hk := hdid.kept ht
    obtain ⟨made', hst'⟩ := hdid.steps
    have hsize : v.index < t.graph.values.size := by
      rw [hst.size]
      exact Nat.lt_of_lt_of_le hvlt (Nat.le_add_right _ _)
    obtain ⟨p', hp', hpb', hpx', -, hsrc'⟩ := hk.phi hsize hp
    obtain ⟨z', hz', -, -, hk'⟩ := Graph.phi?_eq_some.1 hp'
    unfold Edit.pushIncoming
    rw [ends_lift, Ends.bind_iff, Edit.ends_value hz']
    simp only [hk']
    rw [Ends.bind_iff, Ends.modify_iff, Ends.modify_iff]
    have hbusy : v ∈ u.reaching.filling := by
      rw [hdid.filling, hfill]
      exact List.mem_cons_self
    have hpush : Step floor (· = x) closing u none (u.pushed v p' o q) := by
      refine .pushed hfloor hbusy hp' ?_ ?_
      · rw [hsrc', hsrc, hpb', hpb, hk.preds,
          (hst.kept hs (Nat.le_trans hfloor (Nat.le_of_lt hvlt))).preds,
          show (s.busy v).graph.preds b = y.preds from hpreds, hlist]
        exact ⟨rest, by rw [List.append_assoc]; rfl⟩
      · rw [hpx', hpx]
        exact hdid.answer
    refine ⟨⟨_, (hst.trans (hst'.mono ?_ fun _ hc => hc)).trans (.single hpush),
        fun e => absurd e (by simp)⟩, ?_,
      fun c z w hw => hdid.waits ht (hwaits c z w hw),
      fun hl => (hdid.trim (htrim hl)).pushed hp' hbusy o q, p'.push o q, ?_, ?_, ?_, ?_⟩
    · rw [hst.size]
      exact Nat.le_trans hfloor (Nat.le_trans (Nat.le_of_lt hvlt) (Nat.le_add_right _ _))
    · show u.reaching.filling = _
      rw [hdid.filling, hfill]
    · show (u.graph.withIncoming v ⟨p'.var, p'.incoming⟩ o q).phi? v = _
      rw [Graph.phi?_withIncoming hp', if_pos rfl]
    · rw [OwnedPhi.block_push, hpb', hpb]
    · rw [OwnedPhi.var_push, hpx', hpx]
    · rw [OwnedPhi.sources_push, hsrc', hsrc]
  · intro _ t hinv
    obtain ⟨⟨made, hst, hmade⟩, hfill, hwaits, htrim, p, hp, hpb, hpx, hsrc⟩ := hinv
    have ht := hst.sane hs
    have hmem : v ∈ t.reaching.filling := by
      rw [hfill]
      exact List.mem_cons_self
    have hfull : Step floor (· = x) closing t none (t.filled v) := by
      refine .filled hfloor hmem hp ?_
      rw [hsrc, hpb, (hst.kept hs (Nat.le_trans hfloor (Nat.le_of_lt hvlt))).preds]
      exact hpreds.symm
    have hst₁ := hst.trans (.single hfull)
    have hfill₁ : (t.filled v).reaching.filling = s.reaching.filling := by
      show t.reaching.filling.filter (· ≠ v) = _
      rw [hfill, List.filter_cons_of_neg (by simp), List.filter_eq_self]
      intro w hw
      have : w ≠ v := by
        rintro rfl
        exact hf hw
      simpa using this
    have hremovable : Removable floor (t.filled v) v := by
      obtain ⟨zt, hzt, hztb, -, hztk⟩ := Graph.phi?_eq_some.1 hp
      refine ⟨hfloor, Graph.index_lt_of_value? hzt, ?_, ?_, fun c w hc => (ht.pending hc).2.1 hmem⟩
      · show t.graph.instr? v = none
        unfold Graph.instr?
        rw [hzt]
        simp [Value.instr?, hztb, hztk]
      · rw [hfill₁]
        exact hf
    rw [Ends.bind_iff, ends_onTables]
    have hapart₁ : (t.filled v).graph.Apart floor := hst₁.apart hs (hapart)
    refine (ends_removeTrivial (· = x) (hst₁.sane hs) hapart₁ hremovable).mono fun o u h => ?_
    refine ⟨_, hst₁.trans h.1.steps, h.1.filling.trans hfill₁, h.2.1, fun c z w hw => ?_,
      fun hnil => ?_, fun hl => h.2.2.2 _ ((htrim hl).filled v)⟩
    · rw [h.1.pending]
      exact hwaits c z w hw
    · rw [hpreds] at hnil
      refine ⟨by rw [hmade hnil]; rfl, h.2.2.1 ⟨p, hp, ?_, ?_⟩⟩
      · rw [hnil] at hsrc
        exact List.map_eq_nil_iff.1 hsrc
      · show t.graph.preds p.block = []
        rw [hpb, (hst.kept hs (Nat.le_trans hfloor (Nat.le_of_lt hvlt))).preds]
        exact hpreds.trans hnil

/-! ## 4. Reading -/

/-- What is found is recorded. -/
theorem DidRead.of_steps {x : VarId} {b : BlockId} {o : Operand} {made : List NewPhi}
    (hs : Sane closing s) (hst : Steps s.graph.values.size (· = x) closing s made t)
    (hf : t.reaching.filling = s.reaching.filling) (hl : s.Trim → t.Trim) (ho : t.Reads x b o) :
    DidRead closing x b s o (t.recorded x b o) := by
  have ht := hst.sane hs
  refine ⟨⟨_, hst.trans (.single (.recorded rfl ho))⟩, hf, ?_,
    fun h => (hl h).congr (fun _ => rfl) rfl rfl⟩
  show ((t.reaching.record x b o).defs.get? (b, x)).map t.graph.resolve = some o
  rw [Reaching.get?_record, if_pos rfl, Option.map_some,
    ht.steady.resolve_of_anchors (ht.anchors_reads ho)]

/-- A waiting phi answers a read of a block that is not sealed. -/
theorem ends_readUnsealed {b : BlockId} {y : Block} {x : VarId} (hs : Sane closing s)
    (hb : s.graph.block? b = some y) (hy : y.isSealed = false)
    (hn : s.reaching.defs.get? (b, x) = none)
    (hR : variableById? s.reaching.vars x = none → R (.unknownVariable x)) :
    Ends (newPhi b x) s R fun v t => DidRead closing x b s (t.graph.resolve (.value v))
      (Tracked.recorded ⟨t.graph, { t.reaching with pending := t.reaching.pending.add b (x, v) }⟩
        x b (t.graph.resolve (.value v))) := by
  refine (ends_newPhi hb hR).mono fun v t ⟨hv, d, hd, ha⟩ => ?_
  subst hv
  have hstep : Step s.graph.values.size (· = x) closing s _ (s.awaited b x d.ty) :=
    .awaited rfl hb hy hd hn
  have hsane := hs.step hstep
  have hnew : (s.graph.withPhi b x d.ty).Attached s.graph.nextValue :=
    (s.graph.attached_withPhi b x d.ty _).2 (.inl rfl)
  have hres : t.graph.resolve (.value s.graph.nextValue) = .value s.graph.nextValue := by
    rw [ha.graph.resolve]
    exact hsane.steady.forwarding.resolve_of_attached hnew
  rw [hres]
  have halike : (s.awaited b x d.ty).Alike (Tracked.recorded ⟨t.graph,
      { t.reaching with pending := t.reaching.pending.add b (x, s.graph.nextValue) }⟩
        x b (.value s.graph.nextValue)) := by
    refine ⟨ha.graph, ha.vars, ?_, ?_, ?_, ha.filling⟩
    · show (t.reaching.record x b _).defs = (s.reaching.record x b _).defs
      show t.reaching.defs.insert _ _ = s.reaching.defs.insert _ _
      rw [ha.defs]
    · show (Multimap.add (Reaching.unhold _ _) _ _) = Multimap.add (Reaching.unhold _ _) _ _
      unfold Reaching.unhold
      simp only [ha.defs, ha.holders]
    · show t.reaching.pending.add _ _ = s.reaching.pending.add _ _
      rw [ha.pending]
  have htrim : s.Trim → (s.awaited b x d.ty).Trim := fun h =>
    h.withPhi rfl (.inr ⟨b, x, (Multimap.mem_image_add _ _ _ _ _).2 (.inl ⟨rfl, rfl⟩)⟩)
      (fun _ hv => hv) fun _ _ _ hv => (Multimap.mem_image_add _ _ _ _ _).2 (.inr hv)
  refine ⟨⟨_, .cons hstep (.single (.alike halike))⟩, ?_, ?_, fun h => (htrim h).alike halike⟩
  · exact halike.filling.trans rfl
  · show ((t.reaching.record x b (.value s.graph.nextValue)).defs.get? (b, x)).map
      t.graph.resolve = _
    rw [Reaching.get?_record, if_pos rfl, Option.map_some, hres]

/-- A new phi is recorded in a block with several predecessors, and gets its operands. -/
theorem ends_readJoin {read : BlockId → Track Operand} {b : BlockId} {y : Block} {x : VarId}
    (hs : Sane closing s) (hb : s.graph.block? b = some y) (hy : y.isSealed = true)
    (hp : 2 ≤ y.preds.length) (hn : s.reaching.defs.get? (b, x) = none)
    (hR : variableById? s.reaching.vars x = none → R (.unknownVariable x))
    (hread : ∀ t made q, Steps s.graph.values.size (· = x) closing s made t →
      t.reaching.defs.get? (b, x) ≠ none → q ∈ y.preds →
        Ends (read q) t R (DidRead closing x q t)) :
    Ends (newPhi b x >>= fun v => onTables (·.record x b (.value v)) >>= fun _ => fillWith read v)
      s R fun o t => ∃ made, Steps s.graph.values.size (· = x) closing s made t ∧
        t.reaching.filling = s.reaching.filling ∧ (s.Trim → t.Trim) ∧
        t.Reads x b (t.graph.resolve o) := by
  rw [Ends.bind_iff]
  refine (ends_newPhi hb hR).mono fun v t ⟨hv, d, hd, ha⟩ => ?_
  subst hv
  have hstep : Step s.graph.values.size (· = x) closing s _ (s.opened b x d.ty) :=
    .opened rfl hb hy hp hd hn
  have hsane := hs.step hstep
  rw [Ends.bind_iff, ends_onTables]
  generalize hs₁ : ({ t with
    reaching := t.reaching.record x b (.value s.graph.nextValue) } : Tracked) = s₁
  have halike : (s.opened b x d.ty).Alike (s₁.busy s.graph.nextValue) := by
    subst hs₁
    refine ⟨ha.graph, ha.vars, ?_, ?_, ha.pending, ?_⟩
    · show t.reaching.defs.insert _ _ = s.reaching.defs.insert _ _
      rw [ha.defs]
    · show (Multimap.add (Reaching.unhold _ _) _ _) = Multimap.add (Reaching.unhold _ _) _ _
      unfold Reaching.unhold
      simp only [ha.defs, ha.holders]
    · show _ :: t.reaching.filling = _ :: s.reaching.filling
      rw [ha.filling]
  have hst₁ : Steps s.graph.values.size (· = x) closing s _ (s₁.busy s.graph.nextValue) :=
    .cons hstep (.single (.alike halike))
  have hs₁' := hst₁.sane hs
  have hg₁ : (s.graph.withPhi b x d.ty).Alike s₁.graph := halike.graph
  have hphi : s₁.graph.phi? s.graph.nextValue = some ⟨b, d.ty, x, []⟩ := by
    rw [hg₁.phi?, Graph.phi?_withPhi, if_pos rfl]
  have hfill₁ : s₁.reaching.filling = s.reaching.filling := by
    rw [← hs₁]
    exact ha.filling
  have hnot : s.graph.nextValue ∉ s₁.reaching.filling := by
    rw [hfill₁]
    intro hm
    obtain ⟨p, hp', -⟩ := hs.filling hm
    exact Sane.phi?_ne_next hp' rfl
  have hkept := hst₁.kept hs (Nat.le_refl _)
  have hreached : (s₁.busy s.graph.nextValue).reached x b = some (.value s.graph.nextValue) := by
    unfold Tracked.reached
    rw [halike.defs]
    show ((s.reaching.record x b (.value s.graph.nextValue)).defs.get? (b, x)).map _ = _
    rw [Reaching.get?_record, if_pos rfl, Option.map_some]
    exact congrArg some (hs₁'.steady.forwarding.resolve_of_attached (Graph.attached_of_phi? hphi))
  have hrec : (s₁.busy s.graph.nextValue).reaching.defs.get? (b, x) ≠ none := by
    intro hc
    unfold Tracked.reached at hreached
    rw [hc] at hreached
    cases hreached
  refine (ends_fillWith hphi hnot hs₁' (Nat.le_refl _) ?_ ?_).mono fun o u h => ?_
  · exact hst₁.apart hs (.of_size_le hs.steady (Nat.le_refl _))
  · intro u made q hst hq
    refine hread u _ q (hst₁.trans hst) ((hst.kept hs₁' ?_).recorded hrec) ?_
    · exact hkept.size
    · rw [show s₁.graph.preds b = _ from hkept.preds b, Graph.preds_of_block? hb] at hq
      exact hq
  · obtain ⟨made, hst, hfill, rfl, -, -, htrim⟩ := h
    have htrim₁ : s.Trim → (s.opened b x d.ty).Trim := fun h =>
      h.withPhi rfl (.inl List.mem_cons_self) (fun _ hv => List.mem_cons_of_mem _ hv)
        fun _ _ _ hv => hv
    refine ⟨_, hst₁.trans hst, hfill.trans hfill₁,
      fun h => htrim ((htrim₁ h).alike halike), .again ?_⟩
    have hu := hst.sane hs₁'
    rw [(hst.kept hs₁' hkept.size).reached hreached, hu.steady.forwarding.resolve_resolve]

/-- **A variable is read.** The search ends with an answer that is recorded, unless the variable is
    not declared, or the search may fail to end and does. -/
theorem ends_readWithin {x : VarId} (n : Nat) :
    ∀ (s : Tracked) (b : BlockId), Sane closing s → (∃ y, s.graph.block? b = some y) →
      (variableById? s.reaching.vars x = none → R (.unknownVariable x)) → s.Fueled R x b n →
      Ends (readWithin n x b) s R (DidRead closing x b s) := by
  induction n with
  | zero =>
    intro s b hs _ _ hfuel
    unfold readWithin
    rw [Ends.bind_iff, Ends.get_iff]
    cases hd : s.reaching.definition? x b with
    | some o =>
      rw [ends_resolve]
      refine ⟨⟨[], .refl s⟩, rfl, ?_, id⟩
      show (s.reaching.definition? x b).map _ = _
      rw [hd]
      rfl
    | none =>
      rcases hfuel with h | ⟨_, _, _, h⟩
      · exact h
      · exact absurd h (Nat.not_lt_zero _)
  | succ n ih =>
    intro s b hs ⟨y, hb⟩ hR hfuel
    unfold readWithin
    rw [Ends.bind_iff, Ends.get_iff]
    cases hd : s.reaching.definition? x b with
    | some o =>
      rw [ends_resolve]
      refine ⟨⟨[], .refl s⟩, rfl, ?_, id⟩
      show (s.reaching.definition? x b).map _ = _
      rw [hd]
      rfl
    | none =>
      have hn : s.reaching.defs.get? (b, x) = none := hd
      rw [Ends.bind_iff]
      -- what is done with the answer of the search through the predecessors
      suffices H : Ends (readThrough (readWithin n x) x b) s R fun o t =>
          DidRead closing x b s (t.graph.resolve o) (t.recorded x b (t.graph.resolve o)) by
        refine H.mono fun o t h => ?_
        rw [Ends.bind_iff, ends_resolve, Ends.bind_iff, ends_onTables, Ends.pure_iff]
        exact h
      have hsealed : s.graph.isSealed b = y.isSealed := Graph.isSealed_of_block? hb
      have hpreds : s.graph.preds b = y.preds := Graph.preds_of_block? hb
      unfold readThrough
      rw [Ends.bind_iff]
      refine ends_declaration hR fun d hdecl => ?_
      rw [Ends.bind_iff, ends_lift, Edit.ends_block hb]
      split
      · rename_i hy
        split
        · rename_i hp
          refine DidRead.of_steps hs (.refl s) rfl id ?_
          exact .nowhere hn (hsealed.trans hy) (hpreds.trans hp) d hdecl rfl
        · rename_i q hp
          have hq : ∃ z, s.graph.block? q = some z := by
            obtain ⟨z, hz, -⟩ := (hs.steady.orderly.mem_preds hb q).1
              (hp ▸ List.mem_cons_self)
            exact ⟨z, hz⟩
          have hfuel' : s.Fueled R x q n := by
            rcases hfuel with h | ⟨rank, h1, h2, h3⟩
            · exact .inl h
            · have := h2 b q (hsealed.trans hy) (hpreds.trans hp)
              exact .inr ⟨rank, h1, h2, by omega⟩
          refine (ih s q hs hq hR hfuel').mono fun o t h => ?_
          have ht := h.sane hs
          have hkept := h.kept hs
          rw [ht.steady.resolve_of_anchors (ht.anchors_reached h.answer)]
          obtain ⟨made, hst⟩ := h.steps
          refine DidRead.of_steps hs hst h.filling h.trim ?_
          -- on a cycle the answer may have been recorded here already
          by_cases hrec : t.reaching.defs.get? (b, x) = none
          · exact .through hrec (by rw [hkept.isSealed, hsealed, hy]) q
              (by rw [hkept.preds, hpreds, hp]) h.answer
          · refine .again ?_
            rw [hkept.through (hsealed.trans hy) (hpreds.trans hp) hn hrec, h.answer]
        · rename_i hne hne'
          have hlen : 2 ≤ y.preds.length := by
            match hyp : y.preds with
            | [] => exact absurd hyp hne
            | [q] => exact absurd hyp (hne' q)
            | _ :: _ :: _ => simp
          refine (ends_readJoin hs hb hy hlen hn hR ?_).mono fun o t h => ?_
          · intro t made q hst hrec hq
            have hkept := hst.kept hs (Nat.le_refl _)
            have ht := hst.sane hs
            obtain ⟨z, hz, -⟩ := (hs.steady.orderly.mem_preds hb q).1 hq
            obtain ⟨z', hz', -⟩ := hkept.block hz
            have hblocks := Graph.blocks_size_congr hkept.shape
            refine ih t q ht ⟨z', hz'⟩ (by rw [hkept.vars]; exact hR) ?_
            rcases hfuel with h | ⟨rank, h1, h2, h3⟩
            · exact .inl h
            · refine .inr ⟨rank, fun c => by rw [hblocks]; exact h1 c, fun c r hc hr => ?_, ?_⟩
              · rw [hkept.isSealed] at hc
                rw [hkept.preds] at hr
                exact h2 c r hc hr
              · have hlt := Tracked.unrecorded_lt hb hblocks (fun c hc => hkept.recorded hc) hn hrec
                have hq' := h1 q
                rw [hblocks]
                have : (t.unrecorded x + 1) * (s.graph.blocks.size + 1) ≤
                    s.unrecorded x * (s.graph.blocks.size + 1) := Nat.mul_le_mul_right _ hlt
                rw [Nat.add_mul] at this
                omega
          · obtain ⟨made, hst, hfill, htrim, hreads⟩ := h
            exact DidRead.of_steps hs hst hfill htrim hreads
      · rename_i hy
        rw [Ends.bind_iff]
        have hy' : y.isSealed = false := by simpa using hy
        refine (ends_readUnsealed hs hb hy' hn hR).mono fun v t h => ?_
        rw [Ends.bind_iff, ends_onTables, Ends.pure_iff]
        exact h

/-- **A variable is read**, without a bound on the search. -/
theorem ends_read {x : VarId} {b : BlockId}
    (hR : variableById? s.reaching.vars x = none → R (.unknownVariable x)) (hs : Sane closing s)
    (hb : ∃ y, s.graph.block? b = some y) (hg : R .endless ∨ s.graph.Grounded) :
    Ends (read x b) s R (DidRead closing x b s) := by
  unfold read
  rw [Ends.bind_iff, Ends.get_iff]
  refine ends_readWithin _ s b hs hb hR ?_
  rcases hg with h | ⟨rank, h1, h2⟩
  · exact .inl h
  · refine .inr ⟨rank, h1, h2, ?_⟩
    have hu := s.unrecorded_le x
    have hr := h1 b
    have : s.unrecorded x * (s.graph.blocks.size + 1) ≤
        s.graph.blocks.size * (s.graph.blocks.size + 1) := Nat.mul_le_mul_right _ hu
    rw [Nat.add_mul s.graph.blocks.size 1]
    omega

end Track

end BitFlow
