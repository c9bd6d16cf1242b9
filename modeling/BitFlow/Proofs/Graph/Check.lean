import BitFlow.Graph.Check
import BitFlow.Proofs.Graph.Walk

/-!
# What passes the structural check

Each check of the structural check has a meaning of its own: it succeeds exactly if a rule holds.
The check of a block succeeds exactly if all its rules do, and since the walk through the flow finds
what control can reach, the whole check succeeds exactly if the rules hold for these blocks.

Main statements: `Graph.check_eq_ok_iff` -- the check decides its rules, for any graph in which
blocks stand in their places; `Graph.Complete.check` -- a graph in which every block is sealed,
every operand is attached and every phi has an operand for each predecessor passes.
-/

namespace BitFlow

/-! ## 1. Ordered lists of blocks -/

namespace BlockId

theorem before_iff {a b : BlockId} : Ranked.before a b = true ↔ a.index < b.index := by
  simp [Ranked.before, Ranked.rank]

theorem pairwise_insert {set : List BlockId} (h : set.Pairwise fun a b => a.index < b.index)
    (a : BlockId) : (Ranked.insert a set).Pairwise fun a b => a.index < b.index := by
  induction set with
  | nil => exact List.pairwise_singleton _ _
  | cons b bs ih =>
    obtain ⟨hb, hbs⟩ := List.pairwise_cons.1 h
    unfold Ranked.insert
    split
    · exact h
    · rename_i hne
      split
      · rename_i hlt
        rw [before_iff] at hlt
        refine List.pairwise_cons.2 ⟨fun c hc => ?_, h⟩
        rcases List.mem_cons.1 hc with rfl | hc
        · exact hlt
        · exact Nat.lt_trans hlt (hb c hc)
      · rename_i hge
        rw [before_iff] at hge
        refine List.pairwise_cons.2 ⟨fun c hc => ?_, ih hbs⟩
        rcases (Ranked.mem_insert a c bs).1 hc with rfl | hc
        · refine Nat.lt_of_le_of_ne (Nat.le_of_not_lt hge) fun e => hne ?_
          cases b
          cases c
          exact congrArg BlockId.mk e.symm
        · exact hb c hc

theorem pairwise_ofList (as : List BlockId) :
    (Ranked.ofList as).Pairwise fun a b => a.index < b.index := by
  have hfold : ∀ (as set : List BlockId), (set.Pairwise fun a b => a.index < b.index) →
      (as.foldl (fun s a => Ranked.insert a s) set).Pairwise fun a b => a.index < b.index := by
    intro as
    induction as with
    | nil => exact fun _ h => h
    | cons a as ih => exact fun set h => ih _ (pairwise_insert h a)
  exact hfold as [] .nil

/-- A list in order is the ordered list of `bs` exactly if it has the same blocks, each once. -/
theorem mergeSort_eq_ofList_iff {as bs : List BlockId} :
    as.mergeSort (fun x y => x.index ≤ y.index) = Ranked.ofList bs ↔
      as.Nodup ∧ ∀ a, a ∈ as ↔ a ∈ bs := by
  have hnodup : (Ranked.ofList bs).Nodup :=
    (pairwise_ofList bs).imp fun hab e => absurd (e ▸ hab) (Nat.lt_irrefl _)
  have hperm := List.mergeSort_perm as fun x y => x.index ≤ y.index
  constructor
  · intro e
    rw [e] at hperm
    exact ⟨hperm.nodup_iff.1 hnodup, fun a => hperm.mem_iff.symm.trans (Ranked.mem_ofList bs a)⟩
  · rintro ⟨hn, h⟩
    have hsorted : (as.mergeSort fun x y => x.index ≤ y.index).Pairwise
        fun a b => decide (a.index ≤ b.index) = true :=
      List.pairwise_mergeSort (fun a b c hab hbc => by simp at *; omega)
        (fun a b => by simp; omega) as
    have hsame : (as.mergeSort fun x y => x.index ≤ y.index).Perm (Ranked.ofList bs) :=
      hperm.trans ((List.perm_ext_iff_of_nodup hn hnodup).2 fun a =>
        (h a).trans (Ranked.mem_ofList bs a).symm)
    refine hsame.eq_of_pairwise (fun a b _ _ hab hba => ?_) hsorted
      ((pairwise_ofList bs).imp fun hab => decide_eq_true (Nat.le_of_lt hab))
    cases a
    cases b
    exact congrArg BlockId.mk (Nat.le_antisymm (of_decide_eq_true hab) (of_decide_eq_true hba))

end BlockId

namespace Graph

variable {g : Graph} {b t : BlockId} {y : Block}

/-! ## 2. What each check decides -/

theorem bind_eq_ok_iff {α β : Type} {x : Except Fault α} {f : α → Except Fault β} {b : β} :
    (x >>= f) = .ok b ↔ ∃ a, x = .ok a ∧ f a = .ok b := by
  cases x with
  | ok a => exact ⟨fun h => ⟨a, rfl, h⟩, fun ⟨_, e, h⟩ => by cases e; exact h⟩
  | error e => exact ⟨fun h => (by cases h), fun ⟨_, e, _⟩ => (by cases e)⟩

/-- One check after another succeeds if both do. -/
theorem seq_eq_ok_iff {x k : Except Fault Unit} :
    (x >>= fun _ => k) = .ok () ↔ x = .ok () ∧ k = .ok () :=
  bind_eq_ok_iff.trans ⟨fun ⟨(), h⟩ => h, fun h => ⟨(), h⟩⟩

theorem forM_eq_ok_iff {α : Type} {f : α → Except Fault Unit} {as : List α} :
    as.forM f = .ok () ↔ ∀ a ∈ as, f a = .ok () := by
  induction as with
  | nil => exact ⟨fun _ a ha => (by cases ha), fun _ => rfl⟩
  | cons a as ih =>
    rw [List.forall_mem_cons, ← ih]
    exact seq_eq_ok_iff

theorem demand_eq_ok_iff {holds : Bool} {rule : Violation} :
    demand holds rule = .ok () ↔ holds = true := by
  unfold demand
  cases holds
  · exact ⟨fun h => (by cases h), fun h => (by cases h)⟩
  · exact ⟨fun _ => rfl, fun _ => rfl⟩

theorem requireBlock_eq_ok_iff : g.requireBlock b = .ok y ↔ g.block? b = some y := by
  unfold requireBlock
  cases g.block? b with
  | none => exact ⟨fun h => (by cases h), fun h => (by cases h)⟩
  | some z => exact ⟨fun h => by cases h; rfl, fun h => by cases h; rfl⟩

theorem requireValue_eq_ok_iff {v : ValueId} {x : Value} :
    g.requireValue v = .ok x ↔ g.value? v = some x := by
  unfold requireValue
  cases g.value? v with
  | none => exact ⟨fun h => (by cases h), fun h => (by cases h)⟩
  | some z => exact ⟨fun h => by cases h; rfl, fun h => by cases h; rfl⟩

theorem checkAttached_eq_ok_iff {rule : ValueId → Violation} {o : Operand} :
    g.checkAttached rule o = .ok () ↔ g.Anchors o := by
  cases o with
  | value v =>
    unfold checkAttached
    rw [bind_eq_ok_iff]
    simp only [requireValue_eq_ok_iff, demand_eq_ok_iff]
    exact ⟨fun h w hw => by cases hw; exact h, fun h => h v rfl⟩
  | lit c => exact ⟨fun _ => g.anchors_lit c, fun _ => rfl⟩
  | undef ty => exact ⟨fun _ => g.anchors_undef ty, fun _ => rfl⟩

theorem checkSuccessor_eq_ok_iff :
    g.checkSuccessor b t = .ok () ↔ ∃ z, g.block? t = some z ∧ b ∈ z.preds := by
  unfold checkSuccessor
  rw [bind_eq_ok_iff]
  simp only [requireBlock_eq_ok_iff, demand_eq_ok_iff, List.contains_iff_mem]

theorem checkPhi_eq_ok_iff {v : ValueId} :
    g.checkPhi y b v = .ok () ↔ ∃ x p, g.value? v = some x ∧ x.block = some b ∧
      x.kind = .phi p ∧ p.incoming.map Prod.snd = y.preds := by
  unfold checkPhi
  rw [bind_eq_ok_iff]
  simp only [requireValue_eq_ok_iff, seq_eq_ok_iff, demand_eq_ok_iff, beq_iff_eq]
  refine exists_congr fun x => ?_
  cases x.kind with
  | instr i => exact ⟨fun h => (by cases h.2.2), fun ⟨_, _, _, h, _⟩ => (by cases h)⟩
  | phi p =>
    simp only [demand_eq_ok_iff, beq_iff_eq]
    exact ⟨fun ⟨hx, hb, hp⟩ => ⟨p, hx, hb, rfl, hp⟩, fun ⟨_, hx, hb, e, hp⟩ => by
      cases e
      exact ⟨hx, hb, hp⟩⟩

theorem checkValue_eq_ok_iff {v : ValueId} :
    g.checkValue b v = .ok () ↔
      ∃ x, g.value? v = some x ∧ x.block = some b ∧ ∀ o ∈ x.operands, g.Anchors o := by
  unfold checkValue
  rw [bind_eq_ok_iff]
  simp only [requireValue_eq_ok_iff, seq_eq_ok_iff, demand_eq_ok_iff, beq_iff_eq, forM_eq_ok_iff,
    checkAttached_eq_ok_iff]

/-! ## 3. The rules for a block -/

/-- **The rules for a block** `y` of the name `b`. -/
structure Regular (g : Graph) (b : BlockId) (y : Block) : Prop where
  closed : y.isSealed = true
  /-- Every branch leads to a block that knows where it comes from. -/
  targets : ∀ br ∈ y.branches, ∃ z, g.block? br.target = some z ∧ b ∈ z.preds
  nodup_preds : y.preds.Nodup
  /-- The predecessors are those with a branch to the block, whether reached or not. -/
  preds : ∀ p, p ∈ y.preds ↔ g.Edge p b
  phis : ∀ v ∈ y.phis, ∃ x p, g.value? v = some x ∧ x.block = some b ∧ x.kind = .phi p ∧
    p.incoming.map Prod.snd = y.preds
  instrs : ∀ v ∈ y.instrs, ∃ x, g.value? v = some x ∧ x.block = some b
  operands : ∀ v ∈ y.phis ++ y.instrs, ∀ x, g.value? v = some x → ∀ o ∈ x.operands, g.Anchors o
  conds : ∀ br ∈ y.branches, ∀ o, br.cond = some o → g.Anchors o

/-- The listed predecessors are those of the flow exactly if they are those of the graph. -/
theorem Placed.preds_iff (h : g.Placed) (hb : g.block? b = some y) :
    y.preds.mergeSort (fun x y => x.index ≤ y.index) = g.flow.sources b ↔
      y.preds.Nodup ∧ ∀ p, p ∈ y.preds ↔ g.Edge p b := by
  refine BlockId.mergeSort_eq_ofList_iff.trans (and_congr_right fun _ => forall_congr' fun p => ?_)
  have hsource : p ∈ g.flow.sources b ↔ g.Edge p b := by
    rw [Flow.mem_sources, h.mem_flow_edges]
    exact ⟨And.left, fun he => ⟨he, y, hb⟩⟩
  unfold Flow.sources at hsource
  rw [Ranked.mem_ofList] at hsource
  rw [hsource]

/-- **The check of a block decides its rules.** -/
theorem Placed.checkBlock_eq_ok_iff (h : g.Placed) (hb : g.block? b = some y) :
    g.checkBlock b = .ok () ↔ g.Regular b y := by
  unfold checkBlock
  rw [bind_eq_ok_iff]
  simp only [requireBlock_eq_ok_iff, hb, Option.some.injEq, exists_eq_left', seq_eq_ok_iff,
    demand_eq_ok_iff, forM_eq_ok_iff, beq_iff_eq, h.preds_iff hb, checkSuccessor_eq_ok_iff,
    checkPhi_eq_ok_iff, checkValue_eq_ok_iff, checkAttached_eq_ok_iff, List.mem_filterMap]
  constructor
  · rintro ⟨hclosed, htargets, ⟨hnodup, hpreds⟩, hphis, hvalues, hconds⟩
    refine ⟨hclosed, fun br hbr => ?_, hnodup, hpreds, hphis, fun v hv => ?_, fun v hv x hx => ?_,
      fun br hbr o ho => hconds o ⟨br, hbr, ho⟩⟩
    · exact htargets _ ((y.mem_successors _).2 ⟨br, hbr, rfl⟩)
    · obtain ⟨x, hx, hxb, -⟩ := hvalues v (List.mem_append_right _ hv)
      exact ⟨x, hx, hxb⟩
    · obtain ⟨x', hx', -, hops⟩ := hvalues v hv
      cases hx.symm.trans hx'
      exact hops
  · intro h
    refine ⟨h.closed, fun t ht => ?_, ⟨h.nodup_preds, h.preds⟩, h.phis, fun v hv => ?_,
      fun o ⟨br, hbr, ho⟩ => h.conds br hbr o ho⟩
    · obtain ⟨br, hbr, rfl⟩ := (y.mem_successors t).1 ht
      exact h.targets br hbr
    · rcases List.mem_append.1 hv with hp | hi
      · obtain ⟨x, p, hx, hxb, -⟩ := h.phis v hp
        exact ⟨x, hx, hxb, h.operands v hv x hx⟩
      · obtain ⟨x, hx, hxb⟩ := h.instrs v hi
        exact ⟨x, hx, hxb, h.operands v hv x hx⟩

/-- **The structural check decides its rules**: it succeeds exactly if they hold for each block that
    control can reach. -/
theorem check_eq_ok_iff (h : g.Placed) :
    g.check = .ok () ↔ ∀ b y, g.Reached b → g.block? b = some y → g.Regular b y := by
  refine forM_eq_ok_iff.trans ⟨fun hall b y hr hb => ?_, fun hall b hb => ?_⟩
  · exact (h.checkBlock_eq_ok_iff hb).1 (hall b (h.mem_flow_reachable.2 ⟨hr, y, hb⟩))
  · obtain ⟨hr, y, hy⟩ := h.mem_flow_reachable.1 hb
    exact (h.checkBlock_eq_ok_iff hy).2 (hall b y hr hy)

/-- The loop passes the check, so the rules hold for what control can reach of it -- they do not for
    the block aside, which is only looked at as a predecessor. -/
theorem check_eq_ok_iff_roundabout :
    roundabout.check = .ok () ∧ ∀ b y, roundabout.Reached b → roundabout.block? b = some y →
      roundabout.Regular b y := by
  have hcheck : roundabout.check = .ok () := by
    refine forM_eq_ok_iff.2 fun b hb => ?_
    rw [show roundabout.flow.reachable = [⟨0⟩, ⟨1⟩, ⟨2⟩, ⟨3⟩] by decide] at hb
    simp only [List.mem_cons, List.not_mem_nil, or_false] at hb
    rcases hb with rfl | rfl | rfl | rfl
    all_goals
      -- the predecessors are listed in order, so that nothing is to be sorted
      unfold checkBlock
      refine bind_eq_ok_iff.2 ⟨_, rfl, ?_⟩
      rw [List.mergeSort_of_pairwise (by decide)]
      rfl
  exact ⟨hcheck, (check_eq_ok_iff charted_roundabout.placed).1 hcheck⟩

/-! ## 4. Finished graphs -/

/-- **A finished graph**: in order, with every block sealed, every operand attached and an operand
    of every phi for each predecessor. -/
structure Complete (g : Graph) : Prop where
  steady : g.Steady
  anchored : g.Anchored
  closed : ∀ {b y}, g.block? b = some y → y.isSealed = true
  phis : ∀ {v p}, g.phi? v = some p → p.sources = g.preds p.block

namespace Complete

/-- The values that a finished graph lists refer to attached values. -/
theorem anchors (h : g.Complete) {v : ValueId} {x : Value} (hx : g.value? v = some x)
    (hxb : x.block = some b) : ∀ o ∈ x.operands, g.Anchors o := by
  intro o ho
  unfold Value.operands at ho
  cases hk : x.kind with
  | instr i =>
    rw [hk] at ho
    exact h.anchored.instr (i := ⟨b, x.ty, i⟩) (instr?_eq_some.2 ⟨x, hx, hxb, rfl, hk⟩) o ho
  | phi p =>
    rw [hk] at ho
    exact h.steady.phi_anchors (p := ⟨b, x.ty, p.var, p.incoming⟩)
      (phi?_eq_some.2 ⟨x, hx, hxb, rfl, hk⟩) o ho

theorem regular (h : g.Complete) (hb : g.block? b = some y) : g.Regular b y where
  closed := h.closed hb
  targets := fun br hbr => by
    obtain ⟨z, hz⟩ := h.steady.orderly.target_known hb hbr
    exact ⟨z, hz, (h.steady.orderly.mem_preds hz b).2 ⟨y, hb, br, hbr, rfl⟩⟩
  nodup_preds := h.steady.orderly.nodup_preds hb
  preds := fun p => by
    rw [h.steady.orderly.edge_iff, preds_of_block? hb]
  phis := fun v hv => by
    obtain ⟨x, hx, hxb, hxp⟩ := (h.steady.orderly.mem_phis hb v).1 hv
    cases hk : x.kind with
    | instr i =>
      unfold Value.isPhi at hxp
      rw [hk] at hxp
      cases hxp
    | phi p =>
      have hsources := h.phis (phi?_eq_some.2 ⟨x, hx, hxb, rfl, hk⟩ :
        g.phi? v = some ⟨b, x.ty, p.var, p.incoming⟩)
      rw [preds_of_block? hb] at hsources
      exact ⟨x, p, hx, hxb, hk, hsources⟩
  instrs := fun v hv => by
    obtain ⟨x, hx, hxb, -⟩ := (h.steady.orderly.mem_instrs hb v).1 hv
    exact ⟨x, hx, hxb⟩
  operands := fun v hv x hx => by
    rcases List.mem_append.1 hv with hv | hv
    · obtain ⟨x', hx', hxb, -⟩ := (h.steady.orderly.mem_phis hb v).1 hv
      cases hx.symm.trans hx'
      exact h.anchors hx hxb
    · obtain ⟨x', hx', hxb, -⟩ := (h.steady.orderly.mem_instrs hb v).1 hv
      cases hx.symm.trans hx'
      exact h.anchors hx hxb
  conds := fun br hbr o ho => h.anchored.cond (by rwa [branches_of_block? hb]) ho

/-- **A finished graph passes the structural check.** -/
theorem check (h : g.Complete) : g.check = .ok () :=
  forM_eq_ok_iff.2 fun b hb => by
    have hplaced := h.steady.orderly.charted.placed
    obtain ⟨-, y, hy⟩ := hplaced.mem_flow_reachable.1 hb
    exact (hplaced.checkBlock_eq_ok_iff hy).2 (h.regular hy)

end Complete

end Graph

end BitFlow
