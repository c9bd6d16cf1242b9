import BitFlow.Proofs.Graph.Trail
import BitFlow.Proofs.Reaching.Reading
import Mathlib.Data.Nat.Find

/-!
# Routes through a graph

A route is the list of blocks that control passes from the entry on, the last one first. A block
dominates another if every route to that one passes through it.

Main statement: `Graph.grounded_of_reached` -- where every predecessor is reached and nothing leads
back to the entry, chains of single predecessors are shorter than the store of blocks is long, so a
search through them ends.
-/

namespace BitFlow

namespace Graph

/-! ## 1. Edges and routes -/

/-- Some branch leads from `p` to `b`. -/
def Edge (g : Graph) (p b : BlockId) : Prop := ∃ br ∈ g.branches p, br.target = b

instance (g : Graph) (p b : BlockId) : Decidable (g.Edge p b) :=
  inferInstanceAs (Decidable (∃ br ∈ g.branches p, br.target = b))

/-- The routes from the entry, the last block first. -/
abbrev Route (g : Graph) (π : List BlockId) : Prop := Trail g.entry g.Edge π

/-- Control can reach `b`. -/
def Reached (g : Graph) (b : BlockId) : Prop := ∃ π, g.Route (b :: π)

/-- Every route to `b` passes through `a`. -/
def Dominates (g : Graph) (a b : BlockId) : Prop := ∀ π, g.Route (b :: π) → a ∈ b :: π

variable {g : Graph}

/-- Edges are what predecessors list. -/
theorem Orderly.edge_iff (h : g.Orderly) {p b : BlockId} : g.Edge p b ↔ p ∈ g.preds b := by
  constructor
  · rintro ⟨br, hbr, rfl⟩
    unfold branches at hbr
    cases hz : g.block? p with
    | none =>
      rw [hz] at hbr
      cases hbr
    | some z =>
      rw [hz] at hbr
      obtain ⟨y, hy⟩ := h.target_known hz hbr
      rw [preds_of_block? hy]
      exact (h.mem_preds hy p).2 ⟨z, hz, br, hbr, rfl⟩
  · intro hp
    cases hy : g.block? b with
    | none =>
      unfold preds shape at hp
      rw [hy] at hp
      cases hp
    | some y =>
      rw [preds_of_block? hy] at hp
      obtain ⟨z, hz, br, hbr, e⟩ := (h.mem_preds hy p).1 hp
      exact ⟨br, by rw [branches_of_block? hz]; exact hbr, e⟩

theorem Orderly.block_of_mem_preds (h : g.Orderly) {p b : BlockId} (hp : p ∈ g.preds b) :
    (∃ z, g.block? p = some z) ∧ ∃ y, g.block? b = some y := by
  cases hy : g.block? b with
  | none =>
    unfold preds shape at hp
    rw [hy] at hp
    cases hp
  | some y =>
    rw [preds_of_block? hy] at hp
    obtain ⟨z, hz, -⟩ := (h.mem_preds hy p).1 hp
    exact ⟨⟨z, hz⟩, y, rfl⟩

theorem Reached.step {p b : BlockId} (h : g.Reached p) (he : g.Edge p b) : g.Reached b := by
  obtain ⟨π, hπ⟩ := h
  exact ⟨p :: π, hπ.step he⟩

theorem reached_entry (g : Graph) : g.Reached g.entry := ⟨[], .entry⟩

/-- Every block on a route exists. -/
theorem known_of_route (h : g.Orderly) {π : List BlockId} (hπ : g.Route π) {b : BlockId}
    (hb : b ∈ π) : ∃ y, g.block? b = some y := by
  induction hπ with
  | entry =>
    rw [List.mem_singleton.1 hb]
    exact h.entry_known
  | step _ he ih =>
    rcases List.mem_cons.1 hb with rfl | hb
    · exact (h.block_of_mem_preds (h.edge_iff.1 he)).2
    · exact ih hb

theorem Reached.known (h : g.Orderly) {b : BlockId} (hb : g.Reached b) :
    ∃ y, g.block? b = some y := by
  obtain ⟨π, hπ⟩ := hb
  exact known_of_route h hπ List.mem_cons_self

/-! ## 2. Shortest routes -/

/-- No route to `b` has fewer blocks than `n`, and one has as many. -/
def Distance (g : Graph) (b : BlockId) (n : Nat) : Prop :=
  (∃ π, g.Route (b :: π) ∧ (b :: π).length = n) ∧ ∀ π, g.Route (b :: π) → n ≤ (b :: π).length

theorem Reached.distance {b : BlockId} (h : g.Reached b) : ∃ n, g.Distance b n := by
  classical
  obtain ⟨π, hπ⟩ := h
  have hex : ∃ n, ∃ π, g.Route (b :: π) ∧ (b :: π).length = n := ⟨_, π, hπ, rfl⟩
  refine ⟨Nat.find hex, Nat.find_spec hex, fun π' hπ' => ?_⟩
  exact Nat.find_min' hex ⟨π', hπ', rfl⟩

/-- A shortest route passes no block twice: a round trip could be left out. -/
theorem Distance.nodup {b : BlockId} {π : List BlockId} (h : g.Distance b (b :: π).length)
    (hπ : g.Route (b :: π)) : (b :: π).Nodup := by
  by_contra hd
  obtain ⟨l₁, c, l₂, l₃, e⟩ := Trail.split_twice hd
  rw [e] at hπ h
  have hback : g.Route (c :: l₃) := by
    have : g.Route ((l₁ ++ c :: l₂) ++ c :: l₃) := by
      rw [List.append_assoc]
      exact hπ
    exact this.tail
  have hshort := hπ.splice hback
  cases l₁ with
  | nil =>
    obtain rfl : b = c := (List.cons.inj e).1
    have := h.2 _ hshort
    simp at this
    omega
  | cons d l₁ =>
    obtain rfl : b = d := (List.cons.inj e).1
    have := h.2 _ hshort
    simp at this
    omega

/-- A shortest route is no longer than the store of blocks. -/
theorem Distance.le_size (ho : g.Orderly) {b : BlockId} {n : Nat} (h : g.Distance b n) :
    n ≤ g.blocks.size := by
  obtain ⟨⟨π, hπ, rfl⟩, hmin⟩ := h
  have hnodup : ((b :: π).map BlockId.index).Nodup := by
    refine List.Pairwise.map BlockId.index (fun c d hcd e => hcd ?_)
      (Distance.nodup ⟨⟨π, hπ, rfl⟩, hmin⟩ hπ)
    cases c
    cases d
    cases e
    rfl
  have hsub : (b :: π).map BlockId.index ⊆ List.range g.blocks.size := by
    intro i hi
    obtain ⟨c, hc, rfl⟩ := List.mem_map.1 hi
    obtain ⟨y, hy⟩ := known_of_route ho hπ hc
    exact List.mem_range.2 (index_lt_of_block? hy)
  have := (hnodup.subperm hsub).length_le
  rwa [List.length_map, List.length_range] at this

/-- **Where every predecessor is reached and nothing leads back to the entry, chains of single
    predecessors are short**: each step up such a chain is a step towards the entry. -/
theorem grounded_of_reached (ho : g.Orderly) (hentry : g.preds g.entry = [])
    (h : ∀ b q, q ∈ g.preds b → g.Reached q) : g.Grounded := by
  classical
  -- the distance of a block that is reached, and zero elsewhere
  let rank : BlockId → Nat := fun b => if hb : g.Reached b then hb.distance.choose else 0
  have hrank : ∀ b (hb : g.Reached b), g.Distance b (rank b) := by
    intro b hb
    show g.Distance b (if hb : g.Reached b then hb.distance.choose else 0)
    rw [dif_pos hb]
    exact hb.distance.choose_spec
  refine ⟨rank, fun b => ?_, fun b q _ hq => ?_⟩
  · by_cases hb : g.Reached b
    · exact (hrank b hb).le_size ho
    · have : rank b = 0 := dif_neg hb
      omega
  · have hmem : q ∈ g.preds b := by
      rw [hq]
      exact List.mem_cons_self
    have hrq := h b q hmem
    have hrb := hrq.step (ho.edge_iff.2 hmem)
    -- a shortest route to `b` comes from its single predecessor
    obtain ⟨⟨π, hπ, hlen⟩, -⟩ := hrank b hrb
    obtain ⟨-, hmin⟩ := hrank q hrq
    rw [← hlen]
    cases hπ with
    | entry =>
      rw [hentry] at hmem
      cases hmem
    | @step p _ π' hp he =>
      have hpq : p = q := by
        have := ho.edge_iff.1 he
        rw [hq] at this
        exact List.mem_singleton.1 this
      subst hpq
      exact Nat.lt_succ_of_le (hmin π' hp)

end Graph

end BitFlow
