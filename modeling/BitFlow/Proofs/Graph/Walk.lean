import BitFlow.Graph.Reach
import BitFlow.Proofs.Graph.Route

/-!
# The two walks find what control can reach

`Flow.reachable` keeps a stack and a bound on its steps. Each step takes a block from the stack; the
targets that it pushes are paid for by a block that has not been seen before, so the bound, one step
for each edge, lasts until the stack is empty.

`Graph.reachable` need not be looked at again: where names are places and all targets exist, the two
walks do the same steps with the same stack.

Main statements: `Flow.mem_reachable_iff` -- the walk through a flow is exact; `Graph.walks_agree`
-- both walks give the same list, which is exact.
-/

namespace BitFlow

/-! ## 1. The walk through a flow -/

namespace Flow

variable {f : Flow} {b c : BlockId} {n : Nat} {stack seen : List BlockId}

/-- Control can reach `b` along the edges. -/
def Reached (f : Flow) (b : BlockId) : Prop :=
  ∃ π, Trail f.entry (fun p c => (p, c) ∈ f.edges) (b :: π)

theorem mem_targets : c ∈ f.targets b ↔ (b, c) ∈ f.edges := by
  unfold targets
  rw [List.mem_reverse, List.mem_filterMap]
  constructor
  · rintro ⟨⟨p, d⟩, hm, he⟩
    split at he
    · rename_i hp
      cases he
      cases hp
      exact hm
    · cases he
  · intro hm
    exact ⟨(b, c), hm, if_pos rfl⟩

theorem foldl_push (seen ts st : List BlockId) :
    ts.foldl (fun st t => if t ∈ seen then st else t :: st) st =
      ts.reverse.filter (· ∉ seen) ++ st := by
  induction ts generalizing st with
  | nil => rfl
  | cons t ts ih =>
    rw [List.foldl_cons, ih, List.reverse_cons, List.filter_append, List.append_assoc]
    by_cases h : t ∈ seen
    · simp [h]
    · simp [h]

theorem walk_seen (hb : b ∈ seen) : f.walk (n + 1) (b :: stack) seen = f.walk n stack seen := by
  simp only [walk, hb, if_true]

/-- A block that is seen for the first time makes way for its targets, the first edge on top. -/
theorem walk_unseen (hb : b ∉ seen) :
    f.walk (n + 1) (b :: stack) seen =
      f.walk n ((f.targets b).reverse.filter (· ∉ b :: seen) ++ stack) (b :: seen) := by
  rw [← foldl_push]
  simp only [walk, hb, if_false]

/-- What was seen is listed first. -/
theorem walk_append (f : Flow) (n : Nat) (stack seen : List BlockId) :
    ∃ rest, f.walk n stack seen = seen.reverse ++ rest := by
  fun_induction walk f n stack seen with
  | case1 => exact ⟨[], (List.append_nil _).symm⟩
  | case2 => exact ⟨[], (List.append_nil _).symm⟩
  | case3 n b stack seen _ ih => exact ih
  | case4 n b stack seen _ push ih =>
    obtain ⟨rest, e⟩ := ih
    exact ⟨b :: rest, by rw [e, List.reverse_cons, List.append_assoc]; rfl⟩

theorem nodup_walk (h : seen.Nodup) : (f.walk n stack seen).Nodup := by
  fun_induction walk f n stack seen with
  | case1 => exact List.pairwise_reverse.2 (h.imp Ne.symm)
  | case2 => exact List.pairwise_reverse.2 (h.imp Ne.symm)
  | case3 n b stack seen _ ih => exact ih h
  | case4 n b stack seen hb push ih => exact ih (List.nodup_cons.2 ⟨hb, h⟩)

/-- Everything that the walk lists was seen before, or can be reached from the stack. -/
theorem reached_of_mem_walk (h : c ∈ f.walk n stack seen) (hstack : ∀ b ∈ stack, f.Reached b)
    (hseen : ∀ b ∈ seen, f.Reached b) : f.Reached c := by
  induction n generalizing stack seen with
  | zero => exact hseen c (List.mem_reverse.1 h)
  | succ n ih =>
    cases stack with
    | nil => exact hseen c (List.mem_reverse.1 h)
    | cons b stack =>
      have hb := hstack b List.mem_cons_self
      have hrest : ∀ d ∈ stack, f.Reached d := fun d hd => hstack d (List.mem_cons_of_mem _ hd)
      by_cases hm : b ∈ seen
      · rw [walk_seen hm] at h
        exact ih h hrest hseen
      · rw [walk_unseen hm] at h
        refine ih h (fun d hd => ?_) (List.forall_mem_cons.2 ⟨hb, hseen⟩)
        rcases List.mem_append.1 hd with hd | hd
        · obtain ⟨π, hπ⟩ := hb
          exact ⟨b :: π, hπ.step (mem_targets.1 (List.mem_reverse.1 (List.mem_filter.1 hd).1))⟩
        · exact hrest d hd

/-- The number of edges out of blocks that have not been seen. -/
def unseenEdges (f : Flow) (seen : List BlockId) : Nat :=
  (f.edges.filter fun e => e.1 ∉ seen).length

/-- A block that is seen for the first time pays for its edges. -/
theorem unseenEdges_cons (hb : b ∉ seen) :
    f.unseenEdges (b :: seen) + (f.targets b).length = f.unseenEdges seen := by
  unfold unseenEdges targets
  rw [List.length_reverse]
  induction f.edges with
  | nil => rfl
  | cons e es ih =>
    simp only [List.filter_cons, List.filterMap_cons]
    by_cases he : e.1 = b
    · simp only [he, hb, List.mem_cons_self, not_true, not_false_eq_true, decide_true,
        decide_false, if_true, Bool.false_eq_true, if_false, List.length_cons]
      omega
    · by_cases hs : e.1 ∈ seen
      · simpa [he, hs] using ih
      · simp only [he, hs, List.mem_cons, or_self, not_false_eq_true, decide_true, if_true,
          if_false, List.length_cons] at ih ⊢
        omega

/-- The list `seen` is closed under edges, but for what the stack still holds. -/
def Explored (f : Flow) (stack seen : List BlockId) : Prop :=
  ∀ b ∈ seen, ∀ c, (b, c) ∈ f.edges → c ∈ seen ∨ c ∈ stack

theorem Explored.skip (he : f.Explored (b :: stack) seen) (hb : b ∈ seen) :
    f.Explored stack seen := by
  intro p hp c hc
  rcases he p hp c hc with h | h
  · exact .inl h
  · rcases List.mem_cons.1 h with rfl | h
    · exact .inl hb
    · exact .inr h

theorem Explored.expand (he : f.Explored (b :: stack) seen) :
    f.Explored ((f.targets b).reverse.filter (· ∉ b :: seen) ++ stack) (b :: seen) := by
  intro p hp c hc
  by_cases hseen : c ∈ b :: seen
  · exact .inl hseen
  · right
    rcases List.mem_cons.1 hp with rfl | hp
    · refine List.mem_append_left _ (List.mem_filter.2 ⟨?_, decide_eq_true hseen⟩)
      exact List.mem_reverse.2 (mem_targets.2 hc)
    · rcases he p hp c hc with h | h
      · exact absurd (List.mem_cons_of_mem _ h) hseen
      · rcases List.mem_cons.1 h with rfl | h
        · exact absurd List.mem_cons_self hseen
        · exact List.mem_append_right _ h

/-- **The walk ends with everything explored** if its bound covers the stack and the edges that have
    not been seen. -/
theorem explored_walk (hn : stack.length + f.unseenEdges seen ≤ n) (he : f.Explored stack seen) :
    f.Explored [] (f.walk n stack seen) ∧ ∀ b ∈ stack, b ∈ f.walk n stack seen := by
  have hdone : ∀ {seen : List BlockId}, f.Explored [] seen → f.Explored [] seen.reverse := by
    intro seen he b hb c hc
    rcases he b (List.mem_reverse.1 hb) c hc with h | h
    · exact .inl (List.mem_reverse.2 h)
    · cases h
  have hlisted : ∀ {n stack seen} {b : BlockId}, b ∈ seen → b ∈ f.walk n stack seen := by
    intro n stack seen b hb
    obtain ⟨rest, e⟩ := f.walk_append n stack seen
    rw [e]
    exact List.mem_append_left _ (List.mem_reverse.2 hb)
  induction n generalizing stack seen with
  | zero =>
    obtain rfl : stack = [] := List.length_eq_zero_iff.1 (by omega)
    exact ⟨hdone he, fun b hb => by cases hb⟩
  | succ n ih =>
    cases stack with
    | nil => exact ⟨hdone he, fun b hb => by cases hb⟩
    | cons b stack =>
      rw [List.length_cons] at hn
      by_cases hb : b ∈ seen
      · rw [walk_seen hb]
        obtain ⟨hclosed, hstack⟩ := ih (by omega) (he.skip hb)
        exact ⟨hclosed, List.forall_mem_cons.2 ⟨hlisted hb, hstack⟩⟩
      · rw [walk_unseen hb]
        have hpay := f.unseenEdges_cons hb
        have hlen := List.length_filter_le (fun t => decide (t ∉ b :: seen)) (f.targets b).reverse
        rw [List.length_reverse] at hlen
        obtain ⟨hclosed, hstack⟩ := ih (by rw [List.length_append]; omega) he.expand
        exact ⟨hclosed, List.forall_mem_cons.2 ⟨hlisted List.mem_cons_self,
          fun c hc => hstack c (List.mem_append_right _ hc)⟩⟩

theorem reachable_of_entry (h : f.entry ∈ f.blocks) :
    f.reachable = f.walk (2 + f.edges.length) [f.entry] [] := if_pos h

/-- **The walk through a flow lists exactly what control can reach.** -/
theorem mem_reachable_iff (h : f.entry ∈ f.blocks) : b ∈ f.reachable ↔ f.Reached b := by
  have hentry : ∀ c ∈ [f.entry], f.Reached c := fun c hc => by
    rw [List.mem_singleton.1 hc]
    exact ⟨[], .entry⟩
  rw [reachable_of_entry h]
  constructor
  · exact fun hb => reached_of_mem_walk hb hentry fun c hc => by cases hc
  · have hsteps : [f.entry].length + f.unseenEdges [] ≤ 2 + f.edges.length := by
      have : f.unseenEdges [] ≤ f.edges.length := List.length_filter_le _ _
      rw [List.length_singleton]
      omega
    obtain ⟨hclosed, hstart⟩ := explored_walk hsteps fun a ha => by cases ha
    rintro ⟨π, hπ⟩
    -- every block on the trail is listed, from the entry on
    generalize hl : b :: π = l at hπ
    induction hπ generalizing b π with
    | entry =>
      cases hl
      exact hstart _ List.mem_cons_self
    | step _ he ih =>
      cases hl
      rcases hclosed _ (ih _ rfl) _ he with h | h
      · exact h
      · cases h

/-- Without an entry nothing is walked through. -/
theorem reachable_of_no_entry (h : f.entry ∉ f.blocks) : f.reachable = [] := if_neg h

theorem head?_reachable (h : f.entry ∈ f.blocks) : f.reachable.head? = some f.entry := by
  obtain ⟨rest, e⟩ := f.walk_append (1 + f.edges.length)
    ((f.targets f.entry).reverse.filter (· ∉ [f.entry]) ++ []) [f.entry]
  rw [reachable_of_entry h, show 2 + f.edges.length = 1 + f.edges.length + 1 by omega,
    walk_unseen List.not_mem_nil, e]
  rfl

theorem nodup_reachable (f : Flow) : f.reachable.Nodup := by
  unfold reachable
  split
  · exact nodup_walk .nil
  · exact .nil

end Flow

/-! ## 2. The flow of a graph -/

namespace Graph

variable {g : Graph} {b p : BlockId} {y : Block}

/-- Blocks stand at the places that their names give. -/
def Placed (g : Graph) : Prop := ∀ b y, g.block? b = some y → y.id = b

theorem mem_toList (hb : g.block? b = some y) : y ∈ g.blocks.toList :=
  List.mem_of_getElem? (by
    rw [Array.getElem?_toList]
    exact hb)

theorem Placed.block? (h : g.Placed) (hy : y ∈ g.blocks.toList) : g.block? y.id = some y := by
  obtain ⟨n, hn⟩ := List.mem_iff_getElem?.1 hy
  rw [Array.getElem?_toList] at hn
  have hb : g.block? ⟨n⟩ = some y := hn
  rw [h _ _ hb]
  exact hb

theorem Placed.mem_flow_blocks (h : g.Placed) : b ∈ g.flow.blocks ↔ ∃ y, g.block? b = some y := by
  show b ∈ g.blocks.toList.map Block.id ↔ _
  rw [List.mem_map]
  constructor
  · rintro ⟨y, hy, rfl⟩
    exact ⟨y, h.block? hy⟩
  · rintro ⟨y, hy⟩
    exact ⟨y, mem_toList hy, h _ _ hy⟩

/-- The bare flow has the edges of the graph that lead to a block. -/
theorem Placed.mem_flow_edges (h : g.Placed) :
    (p, b) ∈ g.flow.edges ↔ g.Edge p b ∧ ∃ y, g.block? b = some y := by
  rw [← h.mem_flow_blocks]
  show (p, b) ∈ g.blocks.toList.flatMap _ ↔ _
  rw [List.mem_flatMap]
  constructor
  · rintro ⟨z, hz, hm⟩
    obtain ⟨t, ht, e⟩ := List.mem_map.1 hm
    cases e
    obtain ⟨ht, hknown⟩ := List.mem_filter.1 ht
    obtain ⟨br, hbr, e⟩ := (z.mem_successors b).1 ht
    exact ⟨⟨br, by rwa [branches_of_block? (h.block? hz)], e⟩, of_decide_eq_true hknown⟩
  · rintro ⟨⟨br, hbr, rfl⟩, hknown⟩
    obtain ⟨z, hz, hbr⟩ := mem_branches.1 hbr
    refine ⟨z, mem_toList hz, List.mem_map.2 ⟨br.target, List.mem_filter.2 ⟨?_, ?_⟩, ?_⟩⟩
    · exact (z.mem_successors _).2 ⟨br, hbr, rfl⟩
    · exact decide_eq_true hknown
    · rw [h _ _ hz]

/-- Control can leave a block only if it exists. -/
theorem Edge.source (h : g.Edge p b) : ∃ z, g.block? p = some z := by
  obtain ⟨br, hbr, -⟩ := h
  obtain ⟨z, hz, -⟩ := mem_branches.1 hbr
  exact ⟨z, hz⟩

/-- A route to a block that exists runs along edges of the flow, from an entry that exists. -/
theorem Placed.flow_route (h : g.Placed) {π : List BlockId} (hπ : g.Route (b :: π))
    (hb : ∃ y, g.block? b = some y) :
    (∃ y, g.block? g.entry = some y) ∧
      Trail g.entry (fun p c => (p, c) ∈ g.flow.edges) (b :: π) := by
  generalize hl : b :: π = l at hπ
  induction hπ generalizing b π with
  | entry =>
    cases hl
    exact ⟨hb, .entry⟩
  | step _ he ih =>
    cases hl
    obtain ⟨hentry, hflow⟩ := ih he.source rfl
    exact ⟨hentry, hflow.step (h.mem_flow_edges.2 ⟨he, hb⟩)⟩

/-- **The walk through the flow of a graph lists the blocks that exist and can be reached**, whether
    or not its entry and the targets of its branches exist. -/
theorem Placed.mem_flow_reachable (h : g.Placed) :
    b ∈ g.flow.reachable ↔ g.Reached b ∧ ∃ y, g.block? b = some y := by
  constructor
  · intro hb
    by_cases hentry : g.flow.entry ∈ g.flow.blocks
    · obtain ⟨π, hπ⟩ := (Flow.mem_reachable_iff hentry).1 hb
      refine ⟨⟨π, hπ.mono fun p c hpc => (h.mem_flow_edges.1 hpc).1⟩, ?_⟩
      cases hπ with
      | entry => exact h.mem_flow_blocks.1 hentry
      | step _ he => exact (h.mem_flow_edges.1 he).2
    · rw [Flow.reachable_of_no_entry hentry] at hb
      cases hb
  · rintro ⟨⟨π, hπ⟩, hb⟩
    obtain ⟨hentry, hflow⟩ := h.flow_route hπ hb
    exact (Flow.mem_reachable_iff (h.mem_flow_blocks.2 hentry)).2 ⟨π, hflow⟩

/-! ## 3. The walk over blocks -/

/-- Names are places, and neither the entry nor a branch leads nowhere. -/
structure Charted (g : Graph) : Prop where
  placed : g.Placed
  entry_known : ∃ y, g.block? g.entry = some y
  target_known : ∀ {b y br}, g.block? b = some y → br ∈ y.branches →
    ∃ z, g.block? br.target = some z

theorem Orderly.charted (h : g.Orderly) : g.Charted :=
  ⟨fun _ _ => h.block_id, h.entry_known, h.target_known⟩

namespace Charted

theorem successor_known (h : g.Charted) (hb : g.block? b = some y) {t : BlockId}
    (ht : t ∈ y.successors) : ∃ z, g.block? t = some z := by
  obtain ⟨br, hbr, rfl⟩ := (y.mem_successors t).1 ht
  exact h.target_known hb hbr

/-- No edge is left out of the flow. -/
theorem flow_edges (h : g.Charted) :
    g.flow.edges = g.blocks.toList.flatMap fun y => y.successors.map fun t => (y.id, t) := by
  refine List.flatMap_congr fun y hy => congrArg (List.map _) (List.filter_eq_self.2 fun t ht => ?_)
  exact decide_eq_true (h.placed.mem_flow_blocks.2 (h.successor_known (h.placed.block? hy) ht))

theorem nodup_ids (h : g.Charted) : (g.blocks.toList.map Block.id).Nodup := by
  refine List.pairwise_iff_getElem.2 fun i j hi hj hij e => ?_
  rw [List.getElem_map, List.getElem_map] at e
  have hid : ∀ (k : Nat) (hk : k < g.blocks.toList.length), g.blocks.toList[k].id = ⟨k⟩ :=
    fun k hk => h.placed _ _ (by
      show g.blocks[k]? = _
      rw [← Array.getElem?_toList]
      exact List.getElem?_eq_getElem hk)
  rw [List.length_map] at hi hj
  rw [hid i hi, hid j hj] at e
  exact Nat.ne_of_lt hij (congrArg BlockId.index e)

/-- The flow has the edges out of a block in the order of its successors. -/
theorem targets_reverse (h : g.Charted) (hb : g.block? b = some y) :
    (g.flow.targets b).reverse = y.successors := by
  -- what a block contributes: its successors if it is `b`, and nothing otherwise
  have hout : ∀ z : Block, (z.successors.map fun t => (z.id, t)).filterMap
      (fun e => if e.1 = b then some e.2 else none) = if z.id = b then z.successors else [] := by
    intro z
    rw [List.filterMap_map]
    by_cases hz : z.id = b
    · simp [hz]
    · simp [hz]
  have hid := h.placed _ _ hb
  have hn := h.nodup_ids
  obtain ⟨l, r, e⟩ := List.append_of_mem (mem_toList hb)
  rw [e, List.map_append, List.map_cons, hid] at hn
  obtain ⟨-, hr, hdisj⟩ := List.nodup_append.1 hn
  have hnone : ∀ zs : List Block, b ∉ zs.map Block.id →
      (zs.flatMap fun z => if z.id = b then z.successors else []) = [] := fun zs hzs =>
    List.flatMap_eq_nil_iff.2 fun z hz => if_neg fun e => hzs (List.mem_map.2 ⟨z, hz, e⟩)
  unfold Flow.targets
  rw [List.reverse_reverse, h.flow_edges, List.filterMap_flatMap]
  simp only [hout]
  rw [e, List.flatMap_append, List.flatMap_cons, if_pos hid, hnone l, hnone r, List.nil_append,
    List.append_nil]
  · exact (List.nodup_cons.1 hr).1
  · exact fun hl => hdisj b hl b List.mem_cons_self rfl

theorem flow_walk (h : g.Charted) (n : Nat) {stack : List BlockId} (seen : List BlockId)
    (hstack : ∀ b ∈ stack, ∃ y, g.block? b = some y) :
    g.flow.walk n stack seen = g.walk n stack seen := by
  induction n generalizing stack seen with
  | zero => rfl
  | succ n ih =>
    cases stack with
    | nil => rfl
    | cons b stack =>
      obtain ⟨⟨y, hy⟩, hstack⟩ := List.forall_mem_cons.1 hstack
      by_cases hb : b ∈ seen
      · rw [Flow.walk_seen hb, ih seen hstack]
        simp only [walk, hy, hb, if_true]
      · rw [Flow.walk_unseen hb, h.targets_reverse hy, ih]
        · simp only [walk, hy, hb, if_false]
        · refine List.forall_mem_append.2 ⟨fun t ht => ?_, hstack⟩
          exact h.successor_known hy (List.mem_filter.1 ht).1

theorem walkSteps_eq (h : g.Charted) : g.walkSteps = 2 + g.flow.edges.length := by
  rw [h.flow_edges]
  unfold walkSteps
  induction g.blocks.toList with
  | nil => rfl
  | cons y ys ih =>
    rw [List.foldr_cons, ih, List.flatMap_cons, List.length_append, List.length_map]
    omega

theorem flow_reachable (h : g.Charted) : g.flow.reachable = g.reachable := by
  rw [Flow.reachable_of_entry (h.placed.mem_flow_blocks.2 h.entry_known), ← h.walkSteps_eq]
  refine h.flow_walk _ _ fun b hb => ?_
  rw [List.mem_singleton.1 hb]
  exact h.entry_known

theorem known_of_reached (h : g.Charted) (hb : g.Reached b) : ∃ y, g.block? b = some y := by
  obtain ⟨π, hπ⟩ := hb
  cases hπ with
  | entry => exact h.entry_known
  | step _ he =>
    obtain ⟨br, hbr, rfl⟩ := he
    obtain ⟨z, hz, hbr⟩ := mem_branches.1 hbr
    exact h.target_known hz hbr

theorem mem_reachable_iff (h : g.Charted) : b ∈ g.reachable ↔ g.Reached b := by
  rw [← h.flow_reachable, h.placed.mem_flow_reachable]
  exact ⟨And.left, fun hb => ⟨hb, h.known_of_reached hb⟩⟩

end Charted

/-- **The two walks agree and are exact**: they give the same list, which starts with the entry and
    holds each block that control can reach once, and nothing else. -/
theorem walks_agree (h : g.Charted) :
    g.flow.reachable = g.reachable ∧ g.reachable.head? = some g.entry ∧ g.reachable.Nodup ∧
      ∀ b, b ∈ g.reachable ↔ g.Reached b := by
  refine ⟨h.flow_reachable, ?_, ?_, fun b => h.mem_reachable_iff⟩
  · rw [← h.flow_reachable]
    exact Flow.head?_reachable (h.placed.mem_flow_blocks.2 h.entry_known)
  · rw [← h.flow_reachable]
    exact g.flow.nodup_reachable

/-- A loop that can be left from its head and from its body, and a block that nothing leads to. -/
def roundabout : Graph where
  name := "roundabout"
  entry := ⟨0⟩
  exit := none
  blocks := #[
    ⟨⟨0⟩, "entry", .live, [], [], [], [⟨none, ⟨1⟩⟩], true⟩,
    ⟨⟨1⟩, "head", .live, [⟨0⟩], [⟨1⟩], [⟨0⟩, ⟨2⟩], [⟨some (.value ⟨1⟩), ⟨2⟩⟩, ⟨none, ⟨3⟩⟩], true⟩,
    ⟨⟨2⟩, "body", .live, [], [], [⟨1⟩], [⟨some (.value ⟨0⟩), ⟨3⟩⟩, ⟨none, ⟨1⟩⟩], true⟩,
    ⟨⟨3⟩, "done", .live, [], [], [⟨1⟩, ⟨2⟩, ⟨4⟩], [], true⟩,
    ⟨⟨4⟩, "aside", .unreachable, [], [⟨7⟩], [], [⟨none, ⟨3⟩⟩], false⟩]
  values := #[
    ⟨⟨0⟩, .bit, none, .phi ⟨0⟩, some ⟨1⟩,
      .phi ⟨⟨0⟩, [(.undef .bit, ⟨0⟩), (.value ⟨1⟩, ⟨2⟩)]⟩⟩,
    ⟨⟨1⟩, .bit, none, .expression, some ⟨1⟩, .instr ⟨.unary .not, [.value ⟨0⟩], none⟩⟩]
  uses := .empty
  forwards := .empty

theorem charted_roundabout : roundabout.Charted where
  placed := by
    rintro ⟨_ | _ | _ | _ | _ | n⟩ y h <;> cases h <;> rfl
  entry_known := ⟨_, rfl⟩
  target_known := fun {b y br} h hbr => by
    have hall : ∀ y ∈ roundabout.blocks.toList, ∀ br ∈ y.branches,
        br.target.index < roundabout.blocks.size := by decide
    exact exists_block? (hall y (mem_toList h) br hbr)

/-- The body is met before what follows the loop, in both walks. -/
theorem walks_agree_roundabout :
    roundabout.flow.reachable = roundabout.reachable ∧
      roundabout.reachable = [⟨0⟩, ⟨1⟩, ⟨2⟩, ⟨3⟩] ∧ ¬ roundabout.Reached ⟨4⟩ := by
  obtain ⟨hsame, -, -, hmem⟩ := walks_agree charted_roundabout
  have hlist : roundabout.reachable = [⟨0⟩, ⟨1⟩, ⟨2⟩, ⟨3⟩] := by decide
  refine ⟨hsame, hlist, fun h => ?_⟩
  have hfour := (hmem ⟨4⟩).2 h
  rw [hlist] at hfour
  revert hfour
  decide

/-- Where the program ends plays no part in the walk. -/
theorem walk_setExit (g : Graph) (e : Option BlockId) (n : Nat) (stack seen : List BlockId) :
    ({ g with exit := e } : Graph).walk n stack seen = g.walk n stack seen := by
  fun_induction g.walk n stack seen <;> simp_all [walk, block?]

theorem reachable_setExit (g : Graph) (e : Option BlockId) :
    ({ g with exit := e } : Graph).reachable = g.reachable := g.walk_setExit e ..

end Graph

end BitFlow
