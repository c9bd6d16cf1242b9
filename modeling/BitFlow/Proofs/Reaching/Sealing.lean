import BitFlow.Proofs.Reaching.Reading

/-!
# Sealing blocks

When a block is sealed, each of its waiting phis gets its operands, and then the block says that
its predecessors are final. A read of one variable makes no new phi of another, so nothing waits in
the block when all is done.

Main statement: `Track.ends_sealBlock` -- sealing is a chain of steps followed by the seal, and
keeps graph and tables consistent.
-/

namespace BitFlow

/-! ## 1. The seal -/

namespace Graph

/-- The graph in which `b` is sealed. -/
def withSeal (g : Graph) (b : BlockId) : Graph :=
  g.updateBlock b fun y => { y with isSealed := true }

theorem shape_withSeal (g : Graph) (b c : BlockId) :
    (g.withSeal b).shape c = if b = c then (g.shape c).map fun sh => { sh with isSealed := true }
      else g.shape c := by
  unfold shape withSeal
  rw [block?_updateBlock]
  by_cases e : b = c
  · rw [if_pos e, if_pos e, Option.map_map, Option.map_map]
    rfl
  · rw [if_neg e, if_neg e]

theorem branches_withSeal (g : Graph) (b c : BlockId) :
    (g.withSeal b).branches c = g.branches c := by
  unfold branches withSeal
  rw [block?_updateBlock]
  by_cases e : b = c
  · rw [if_pos e, Option.map_map]
    rfl
  · rw [if_neg e]

theorem preds_withSeal (g : Graph) (b c : BlockId) : (g.withSeal b).preds c = g.preds c := by
  unfold preds
  rw [shape_withSeal]
  split
  · rw [Option.map_map]
    rfl
  · rfl

theorem isSealed_withSeal {g : Graph} {b : BlockId} {y : Block} (hb : g.block? b = some y)
    (c : BlockId) : (g.withSeal b).isSealed c = if b = c then true else g.isSealed c := by
  unfold isSealed
  rw [shape_withSeal]
  by_cases e : b = c
  · rw [if_pos e, if_pos e]
    subst e
    unfold shape
    rw [hb]
    rfl
  · rw [if_neg e, if_neg e]

/-- A change of a block's kind or of its seal keeps a graph steady. -/
theorem Steady.updateBlock {g : Graph} (h : g.Steady) (b : BlockId) {f : Block → Block}
    (hf : ∀ y, (f y).id = y.id ∧ (f y).phis = y.phis ∧ (f y).instrs = y.instrs ∧
      (f y).preds = y.preds ∧ (f y).branches = y.branches) : (g.updateBlock b f).Steady := by
  have hU : ∀ {v u}, (g.updateBlock b f).Refers v u → g.Refers v u := by
    intro v u hu
    cases u with
    | value w => exact hu
    | branch c =>
      obtain ⟨y', hy', hbr⟩ := hu
      rw [block?_updateBlock] at hy'
      split at hy'
      · obtain ⟨y, hy, rfl⟩ := Option.map_eq_some_iff.1 hy'
        rw [(hf y).2.2.2.2] at hbr
        exact ⟨y, hy, hbr⟩
      · exact ⟨y', hy', hbr⟩
  exact ⟨h.orderly.updateBlock b hf,
    ⟨h.forwarding.ordered, h.forwarding.removed, h.forwarding.target_known⟩,
    fun hu => h.knows (hU hu), h.phi_anchors⟩

end Graph

namespace Sane

variable {s : Tracked} {b : BlockId}

/-- While a block is being sealed, its predecessors count as final. -/
theorem closing (h : Sane none s) (b : BlockId) : Sane (some b) s := by
  have hcl : ∀ {c}, s.graph.Closed none c → s.graph.Closed (some b) c := by
    rintro c (hc | hc)
    · exact .inl hc
    · cases hc
  refine { h with filling := fun hv => ?_, complete := fun hp hf hw => ?_ }
  · obtain ⟨p, hp, hc, hq⟩ := h.filling hv
    exact ⟨p, hp, hcl hc, hq⟩
  · obtain ⟨h1, h2⟩ := h.complete hp hf hw
    exact ⟨h1, hcl h2⟩

/-- Once nothing waits in it, the block may be sealed. -/
theorem withSeal (h : Sane (some b) s) {y : Block} (hb : s.graph.block? b = some y)
    (hp : s.reaching.pending.image b = []) : Sane none { s with graph := s.graph.withSeal b } := by
  have hcl : ∀ {c}, s.graph.Closed (some b) c → (s.graph.withSeal b).Closed none c := by
    intro c hc
    refine .inl ?_
    rw [Graph.isSealed_withSeal hb]
    rcases hc with hc | hc
    · rw [hc]
      exact ite_self true
    · rw [if_pos (Option.some.inj hc)]
  refine ⟨h.steady.updateBlock b fun y => ⟨rfl, rfl, rfl, rfl, rfl⟩, h.mirrored, h.tight,
    h.nodup_pending, h.defs_known, h.declared, fun {v} hv => ?_, fun {c x v} hv => ?_,
    fun {v p} hp' hf hw => ?_⟩
  · obtain ⟨p, hp', hc, hq⟩ := h.filling hv
    refine ⟨p, hp', hcl hc, ?_⟩
    show p.sources <+: (s.graph.withSeal b).preds p.block
    rw [Graph.preds_withSeal]
    exact hq
  · obtain ⟨h1, h2, h3, h4⟩ := h.pending hv
    refine ⟨h1, h2, ?_, h4⟩
    show (s.graph.withSeal b).isSealed c = false
    rw [Graph.isSealed_withSeal hb, if_neg ?_]
    · exact h3
    · rintro rfl
      rw [hp] at hv
      cases hv
  · obtain ⟨h1, h2⟩ := h.complete hp' hf hw
    refine ⟨?_, hcl h2⟩
    show p.sources = (s.graph.withSeal b).preds p.block
    rw [Graph.preds_withSeal]
    exact h1

end Sane

/-! ## 2. Filling what waits -/

namespace Track

variable {s : Tracked} {R : Fault → Prop} {b : BlockId}

/-- One phi leaves the waiting list of `b` and gets its operands. -/
def fillNext (b : BlockId) (x : VarId) (v : ValueId) : Track Unit := do
  onTables fun r => { r with pending := r.pending.remove b (x, v) }
  discard (fill x v)
  onTables Reaching.countCompleted

theorem fillPending_cons (b : BlockId) (x : VarId) (v : ValueId) (ws : List (VarId × ValueId)) :
    fillPending b ((x, v) :: ws) = fillNext b x v >>= fun _ => fillPending b ws := by
  unfold fillNext
  rw [bind_assoc]
  funext _
  rw [bind_assoc]
  rfl

/-- **A waiting phi gets its operands**, and it alone waits no longer. Where there is no predecessor
    it is gone afterwards, and no phi was made. -/
theorem ends_fillNext (hs : Sane (some b) s) {x : VarId} {v : ValueId}
    (hxv : (x, v) ∈ s.reaching.pending.image b) (hground : R .endless ∨ s.graph.Grounded) :
    Ends (fillNext b x v) s R fun _ t =>
      (∃ made, Steps 0 (fun _ => True) (some b) s made t ∧ (s.graph.preds b = [] →
        made = [] ∧ t.graph.phi? v = none)) ∧
      t.reaching.filling = s.reaching.filling ∧
      (∀ z w, (z, w) ∈ t.reaching.pending.image b ↔
        (z, w) ∈ s.reaching.pending.image b ∧ (z, w) ≠ (x, v)) ∧
      (s.Trim → t.Trim) := by
  obtain ⟨⟨ty, hv⟩, hf, -, hrec⟩ := hs.pending hxv
  have hstep : Step 0 (fun _ => True) (some b) s none (s.started b x v) :=
    .started rfl (Nat.zero_le _) hxv
  have hs₁ := hs.step hstep
  unfold fillNext
  rw [Ends.bind_iff, ends_onTables, Ends.bind_iff, Ends.discard_iff]
  unfold fill
  refine Ends.mono (ends_fillWith
    (s := ⟨s.graph, { s.reaching with pending := s.reaching.pending.remove b (x, v) }⟩)
    hv hf hs₁ (Nat.zero_le v.index) (.zero _) ?_) fun o t h => ?_
  · intro t made q hst hq
    have ht := hst.sane hs₁
    have hk := hst.kept hs₁ (Nat.zero_le _)
    obtain ⟨y, hy, hyb⟩ : ∃ y, s.graph.block? b = some y ∧ q ∈ y.preds := by
      obtain ⟨z, hz, hzb, -, -⟩ := Graph.phi?_eq_some.1 hv
      obtain ⟨y, hy⟩ := hs.steady.orderly.owner_known hz hzb
      exact ⟨y, hy, by rw [← Graph.preds_of_block? hy]; exact hq⟩
    obtain ⟨z, hz, -⟩ := (hs.steady.orderly.mem_preds hy q).1 hyb
    obtain ⟨z', hz', -⟩ := hk.block hz
    refine ends_read (fun hnone => ?_) ht ⟨z', hz'⟩ (hground.imp_right fun hg => ?_)
    · -- the variable of a phi is declared
      obtain ⟨d, hd, -⟩ := hs.declared hv
      rw [hk.vars] at hnone
      cases hd.symm.trans hnone
    · exact hg.congr hk.shape
  · obtain ⟨made, hst, hfill, -, hwaits, hnil, htrim⟩ := h
    have hk := hst.kept hs₁ (Nat.zero_le _)
    rw [ends_onTables]
    have hcount : Step 0 (fun _ => True) (some b) t none
        { t with reaching := t.reaching.countCompleted } :=
      .alike ⟨.refl _, rfl, rfl, rfl, rfl, rfl⟩
    have himage : ∀ z w, (z, w) ∈ (s.reaching.pending.remove b (x, v)).image b ↔
        (z, w) ∈ s.reaching.pending.image b ∧ (z, w) ≠ (x, v) := by
      intro z w
      rw [Multimap.mem_image_remove]
      exact and_congr_right fun _ => not_congr (and_iff_right rfl)
    refine ⟨⟨_, .cons hstep ((hst.mono (Nat.le_refl _) fun _ _ => trivial).trans
      (.single hcount)), fun hpre => ?_⟩, hfill, fun z w => ?_,
      fun h => (htrim (h.started b x v)).congr (fun _ => rfl) rfl rfl⟩
    · obtain ⟨rfl, hgone⟩ := hnil hpre
      exact ⟨rfl, hgone⟩
    · show (z, w) ∈ t.reaching.pending.image b ↔ _
      rw [← himage]
      constructor
      · intro hm
        rcases hk.waits_new hm with hm | ⟨rfl, hn⟩
        · exact hm
        · -- the variable that was read is recorded here already
          exact absurd hn hrec
      · exact fun hm => hwaits b z w hm

/-- **All waiting phis of a block get their operands.** Where there is no predecessor they are gone
    afterwards, and no phi was made. -/
theorem ends_fillPending (ws : List (VarId × ValueId)) :
    ∀ s : Tracked, Sane (some b) s → (∀ z w, (z, w) ∈ s.reaching.pending.image b ↔ (z, w) ∈ ws) →
      ws.Nodup → (R .endless ∨ s.graph.Grounded) →
      Ends (fillPending b ws) s R fun _ t =>
        (∃ made, Steps 0 (fun _ => True) (some b) s made t ∧ (s.graph.preds b = [] →
          made = [] ∧ ∀ p ∈ ws, t.graph.phi? p.2 = none)) ∧
        t.reaching.filling = s.reaching.filling ∧ t.reaching.pending.image b = [] ∧
        (s.Trim → t.Trim) := by
  induction ws with
  | nil =>
    intro s _ hmem _ _
    refine ⟨⟨[], .refl s, fun _ => ⟨rfl, fun p hp => by cases hp⟩⟩, rfl, ?_, id⟩
    refine List.eq_nil_iff_forall_not_mem.2 fun p hp => ?_
    cases (hmem p.1 p.2).1 hp
  | cons p ws ih =>
    obtain ⟨x, v⟩ := p
    intro s hs hmem hnodup hground
    rw [List.nodup_cons] at hnodup
    rw [fillPending_cons, Ends.bind_iff]
    refine (ends_fillNext hs ((hmem x v).2 List.mem_cons_self) hground).mono fun _ t h => ?_
    obtain ⟨⟨made, hst, hnil₁⟩, hfill, hwaits, htrim⟩ := h
    have ht := hst.sane hs
    have hk := hst.kept hs (Nat.zero_le _)
    refine (ih t ht (fun z w => ?_) hnodup.2 (hground.imp_right fun hg => ?_)).mono fun _ u h => ?_
    · rw [hwaits, hmem, List.mem_cons]
      constructor
      · exact fun hm => hm.1.resolve_left hm.2
      · intro hm
        refine ⟨.inr hm, fun e => ?_⟩
        rw [e] at hm
        exact hnodup.1 hm
    · exact hg.congr hk.shape
    · obtain ⟨⟨made', hst', hnil₂⟩, hfill', hnil, htrim'⟩ := h
      refine ⟨⟨_, hst.trans hst', fun hpre => ?_⟩, hfill'.trans hfill, hnil,
        fun h => htrim' (htrim h)⟩
      obtain ⟨rfl, hgone⟩ := hnil₁ hpre
      obtain ⟨rfl, hrest⟩ := hnil₂ ((hk.preds b).trans hpre)
      refine ⟨rfl, fun p hp => ?_⟩
      rcases List.mem_cons.1 hp with rfl | hp
      · -- no later step brings it back
        cases hpv : u.graph.phi? v with
        | none => rfl
        | some q =>
          rcases hst'.phi_origin ht (Nat.zero_le _) hpv with ⟨q₀, hq₀, -⟩ | ⟨hm, -⟩
          · cases hgone.symm.trans hq₀
          · cases hm
      · exact hrest p hp

/-- In a block that is not sealed every phi waits. -/
theorem waits_of_unsealed (hs : Sane none s) {v : ValueId} {p : OwnedPhi}
    (hp : s.graph.phi? v = some p) (hb : s.graph.isSealed p.block = false) :
    (p.var, v) ∈ s.reaching.pending.image p.block := by
  have hopen : ¬ s.graph.Closed none p.block := by
    rintro (hc | hc)
    · rw [hb] at hc
      cases hc
    · cases hc
  have hf : v ∉ s.reaching.filling := by
    intro hf
    obtain ⟨p', hp', hc, -⟩ := hs.filling hf
    cases hp.symm.trans hp'
    exact hopen hc
  by_contra hn
  refine hopen (hs.complete hp hf fun c x hx => ?_).2
  obtain ⟨⟨ty, hp'⟩, -⟩ := hs.pending hx
  cases hp.symm.trans hp'
  exact hn hx

/-- **A block is sealed**: its waiting phis get their operands in a chain of steps, and then the
    seal is set. A block without predecessors has no phi afterwards, and no phi is left that is not
    needed. -/
theorem ends_sealBlock {y : Block} (hs : Sane none s) (hb : s.graph.block? b = some y)
    (hy : y.isSealed = false) (hg : R .endless ∨ s.graph.Grounded) :
    Ends (sealBlock b) s R fun _ t => ∃ made u, Steps 0 (fun _ => True) (some b) s made u ∧
      u.reaching.filling = s.reaching.filling ∧ u.reaching.pending.image b = [] ∧
      t = { u with graph := u.graph.withSeal b } ∧ Sane none t ∧
      (s.graph.preds b = [] → ∀ v p, u.graph.phi? v = some p → p.block ≠ b) ∧
      (s.Trim → t.Trim) := by
  unfold sealBlock
  rw [Ends.bind_iff, ends_lift, Edit.ends_block hb, hy]
  simp only [Bool.false_eq_true, if_false]
  rw [Ends.bind_iff, Ends.get_iff, Ends.bind_iff]
  have hs' := hs.closing b
  refine (ends_fillPending _ s hs' (fun _ _ => Iff.rfl) (hs.nodup_pending b) hg).mono
    fun _ u h => ?_
  obtain ⟨⟨made, hst, hgone⟩, hfill, hnil, htrim⟩ := h
  obtain ⟨y', hy', -⟩ := (hst.kept hs' (Nat.zero_le _)).block hb
  rw [ends_lift, Edit.ends_updateBlock hy']
  refine ⟨made, u, hst, hfill, hnil, rfl, (hst.sane hs').withSeal hy' hnil, fun hpre v p hp => ?_,
    fun h => (htrim h).congr (fun _ => rfl) rfl rfl⟩
  rintro rfl
  obtain ⟨rfl, hnone⟩ := hgone hpre
  rcases hst.phi_origin hs' (Nat.zero_le _) hp with ⟨p₀, hp₀, e, -⟩ | ⟨hm, -⟩
  · have hw := waits_of_unsealed hs hp₀ (by rw [e, Graph.isSealed_of_block? hb, hy])
    rw [e] at hw
    cases hp.symm.trans (hnone _ hw)
  · cases hm

end Track

end BitFlow
