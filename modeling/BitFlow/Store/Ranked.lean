/-!
# Ordered sets as lists

A type is ranked when its elements carry a pair of numbers by which they are listed. A set of such
elements is kept as a list in ascending order; inserting an element that is there changes nothing.

Main statements: `Ranked.mem_insert`, `Ranked.mem_ofList` -- insertion adds exactly the element,
and listing a collection in order keeps exactly its elements.
-/

namespace BitFlow

/-- A type whose elements are listed by a pair of numbers, the first one first. -/
class Ranked (α : Type) where
  rank : α → Nat × Nat

namespace Ranked

variable {α : Type} [Ranked α] [DecidableEq α]

/-- Whether `a` is listed before `b`. -/
def before (a b : α) : Bool :=
  decide ((rank a).1 < (rank b).1) ||
    (decide ((rank a).1 = (rank b).1) && decide ((rank a).2 < (rank b).2))

/-- The set with `a` added, at its place in the order. -/
def insert (a : α) : List α → List α
  | [] => [a]
  | b :: bs => if a = b then b :: bs else if before a b then a :: b :: bs else b :: insert a bs

/-- The elements of a collection, each once and in order. -/
def ofList (as : List α) : List α := as.foldl (fun set a => insert a set) []

@[simp] theorem mem_insert (a b : α) (set : List α) : b ∈ insert a set ↔ b = a ∨ b ∈ set := by
  induction set with
  | nil => simp [insert]
  | cons c cs ih =>
    unfold insert
    split
    · rename_i h
      subst h
      simp
    · split
      · simp
      · simp only [List.mem_cons, ih]
        constructor
        · rintro (h | h | h) <;> simp [h]
        · rintro (h | h | h) <;> simp [h]

theorem mem_foldl_insert (as : List α) (set : List α) (b : α) :
    b ∈ as.foldl (fun s a => insert a s) set ↔ b ∈ as ∨ b ∈ set := by
  induction as generalizing set with
  | nil => simp
  | cons a as ih =>
    rw [List.foldl_cons, ih, mem_insert, List.mem_cons]
    constructor
    · rintro (h | h | h) <;> simp [h]
    · rintro ((h | h) | h) <;> simp [h]

@[simp] theorem mem_ofList (as : List α) (b : α) : b ∈ ofList as ↔ b ∈ as := by
  simp [ofList, mem_foldl_insert]

end Ranked

end BitFlow
