import BitFlow.Store.Ranked
import BitFlow.Store.Table

/-!
# Finite relations

A multimap assigns to each key a finite set in ascending order; a key whose set is empty has no
entry.

Main statements: `Multimap.mem_image_add`, `Multimap.mem_image_remove`,
`Multimap.mem_image_drop` -- each operation changes exactly the pairs it names.
-/

namespace BitFlow

/-- A finite relation between keys and ranked elements. -/
structure Multimap (κ α : Type) where
  table : Table κ (List α)
  deriving Repr

namespace Multimap

variable {κ α : Type} [DecidableEq κ]

/-! ## 1. Images -/

/-- The relation without pairs. -/
def empty : Multimap κ α := ⟨.empty⟩

instance : Inhabited (Multimap κ α) := ⟨empty⟩

/-- The elements related to a key, in ascending order. -/
def image (m : Multimap κ α) (k : κ) : List α := (m.table.get? k).getD []

/-- The relation with the set of a key replaced; an empty set leaves no entry. -/
def setImage (m : Multimap κ α) (k : κ) : List α → Multimap κ α
  | [] => ⟨m.table.erase k⟩
  | a :: as => ⟨m.table.insert k (a :: as)⟩

/-- The keys that are related to something. -/
def keys (m : Multimap κ α) : List κ := m.table.keys

@[simp] theorem image_empty (k : κ) : (empty : Multimap κ α).image k = [] := rfl

@[simp] theorem image_setImage (m : Multimap κ α) (k k' : κ) (as : List α) :
    (m.setImage k as).image k' = if k = k' then as else m.image k' := by
  cases as with
  | nil =>
    simp only [setImage, image, Table.get?_erase]
    split <;> rfl
  | cons a as =>
    simp only [setImage, image, Table.get?_insert]
    split <;> rfl

/-! ## 2. Single pairs -/

/-- The relation without the pairs of a key. -/
def drop (m : Multimap κ α) (k : κ) : Multimap κ α := m.setImage k []

theorem mem_image_drop (m : Multimap κ α) (k k' : κ) (b : α) :
    b ∈ (m.drop k).image k' ↔ b ∈ m.image k' ∧ k ≠ k' := by
  unfold drop
  rw [image_setImage]
  by_cases h : k = k'
  · simp [h]
  · simp [h]

variable [DecidableEq α] [Ranked α]

/-- The relation with one pair more. -/
def add (m : Multimap κ α) (k : κ) (a : α) : Multimap κ α :=
  m.setImage k (Ranked.insert a (m.image k))

/-- The relation with one pair less. -/
def remove (m : Multimap κ α) (k : κ) (a : α) : Multimap κ α :=
  m.setImage k ((m.image k).filter (fun b => b ≠ a))

theorem mem_image_add (m : Multimap κ α) (k k' : κ) (a b : α) :
    b ∈ (m.add k a).image k' ↔ (k = k' ∧ b = a) ∨ b ∈ m.image k' := by
  unfold add
  rw [image_setImage]
  by_cases h : k = k'
  · subst h
    simp
  · simp [h]

omit [Ranked α] in
theorem mem_image_remove (m : Multimap κ α) (k k' : κ) (a b : α) :
    b ∈ (m.remove k a).image k' ↔ b ∈ m.image k' ∧ ¬ (k = k' ∧ b = a) := by
  unfold remove
  rw [image_setImage]
  by_cases h : k = k'
  · subst h
    simp
  · simp [h]

end Multimap

end BitFlow
