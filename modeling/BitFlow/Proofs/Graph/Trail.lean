import BitFlow.Graph.Id

/-!
# Trails

A trail follows edges from an entry on. It is the list of the blocks that it passes, the last one
first, so what happened before a block is what follows it in the list.

Main statements: `Trail.tail`, `Trail.splice` -- a trail can be cut off at a block and continued
from another way there.
-/

namespace BitFlow

/-- The trails along `edge` from `entry`, the last block first. -/
inductive Trail (entry : BlockId) (edge : BlockId → BlockId → Prop) : List BlockId → Prop where
  | entry : Trail entry edge [entry]
  | step {p b : BlockId} {π : List BlockId} (h : Trail entry edge (p :: π)) (he : edge p b) :
      Trail entry edge (b :: p :: π)

namespace Trail

variable {entry : BlockId} {edge edge' : BlockId → BlockId → Prop} {b : BlockId}
  {l r r' π : List BlockId}

/-- What is left of a trail behind some of its blocks is a trail. -/
theorem tail (h : Trail entry edge (l ++ b :: r)) : Trail entry edge (b :: r) := by
  induction l with
  | nil => exact h
  | cons c l ih =>
    refine ih ?_
    cases l with
    | nil =>
      cases h with
      | step h _ => exact h
    | cons d l =>
      cases h with
      | step h _ => exact h

/-- Two trails that pass through one block can be put together there. -/
theorem splice (h : Trail entry edge (l ++ b :: r)) (h' : Trail entry edge (b :: r')) :
    Trail entry edge (l ++ b :: r') := by
  induction l with
  | nil => exact h'
  | cons c l ih =>
    cases l with
    | nil =>
      cases h with
      | step h he => exact .step h' he
    | cons d l =>
      cases h with
      | step h he => exact .step (ih h) he

theorem mono (h : Trail entry edge π) (he : ∀ p b, edge p b → edge' p b) :
    Trail entry edge' π := by
  induction h with
  | entry => exact .entry
  | step _ hpb ih => exact ih.step (he _ _ hpb)

/-! ## Where a block is passed -/

theorem split_last (h : b ∈ π) : ∃ l r, π = l ++ b :: r ∧ b ∉ r := by
  induction π with
  | nil => cases h
  | cons c π ih =>
    by_cases hm : b ∈ π
    · obtain ⟨l, r, rfl, hr⟩ := ih hm
      exact ⟨c :: l, r, rfl, hr⟩
    · have e : b = c := (List.mem_cons.1 h).resolve_right hm
      subst e
      exact ⟨[], π, rfl, hm⟩

/-- What is not free of duplicates passes some block twice. -/
theorem split_twice (h : ¬ π.Nodup) : ∃ l₁ c l₂ l₃, π = l₁ ++ c :: (l₂ ++ c :: l₃) := by
  induction π with
  | nil => exact absurd List.nodup_nil h
  | cons c π ih =>
    by_cases hc : c ∈ π
    · obtain ⟨l₂, l₃, rfl⟩ := List.append_of_mem hc
      exact ⟨[], c, l₂, l₃, rfl⟩
    · obtain ⟨l₁, d, l₂, l₃, rfl⟩ := ih fun hn => h (List.nodup_cons.2 ⟨hc, hn⟩)
      exact ⟨c :: l₁, d, l₂, l₃, rfl⟩

end Trail

end BitFlow
