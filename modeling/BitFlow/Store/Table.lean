/-!
# Finite maps

A table is a finite map from keys to entries, kept as a list of pairs.

Main statements: `Table.get?_insert` and `Table.get?_erase` -- a table answers with what was put
last under a key and not erased since.
-/

namespace BitFlow

/-- A finite map. -/
structure Table (κ υ : Type) where
  pairs : List (κ × υ)
  deriving Repr

namespace Table

variable {κ υ : Type} [DecidableEq κ]

/-- The map without entries. -/
def empty : Table κ υ := ⟨[]⟩

instance : Inhabited (Table κ υ) := ⟨empty⟩

/-- The entry under a key. -/
def get? (t : Table κ υ) (k : κ) : Option υ := t.pairs.lookup k

/-- The map without the entry under a key. -/
def erase (t : Table κ υ) (k : κ) : Table κ υ := ⟨t.pairs.filter (fun p => p.1 ≠ k)⟩

/-- The map with `v` as the entry under `k`. -/
def insert (t : Table κ υ) (k : κ) (v : υ) : Table κ υ := ⟨(k, v) :: (t.erase k).pairs⟩

/-- The keys that have an entry. -/
def keys (t : Table κ υ) : List κ := t.pairs.map Prod.fst

/-- The number of entries. -/
def size (t : Table κ υ) : Nat := t.pairs.length

@[simp] theorem get?_empty (k : κ) : (empty : Table κ υ).get? k = none := rfl

theorem lookup_filter_ne (k k' : κ) (ps : List (κ × υ)) :
    (ps.filter (fun p => p.1 ≠ k)).lookup k' = if k = k' then none else ps.lookup k' := by
  induction ps with
  | nil => simp
  | cons p ps ih =>
    obtain ⟨a, v⟩ := p
    by_cases hak : a = k
    · subst hak
      simp only [ne_eq, not_true_eq_false, decide_false, Bool.false_eq_true, not_false_eq_true,
        List.filter_cons_of_neg, ih, List.lookup_cons]
      by_cases hk : a = k'
      · simp [hk]
      · have : (k' == a) = false := by simpa using Ne.symm hk
        simp [hk, this]
    · have hf : (List.filter (fun p : κ × υ => decide (p.1 ≠ k)) ((a, v) :: ps))
          = (a, v) :: List.filter (fun p : κ × υ => decide (p.1 ≠ k)) ps := by
        simp [hak]
      rw [hf, List.lookup_cons, List.lookup_cons, ih]
      by_cases hk' : k' = a
      · subst hk'
        simp [Ne.symm hak]
      · have : (k' == a) = false := by simpa using hk'
        simp [this]

@[simp] theorem get?_erase (t : Table κ υ) (k k' : κ) :
    (t.erase k).get? k' = if k = k' then none else t.get? k' :=
  lookup_filter_ne k k' t.pairs

@[simp] theorem get?_insert (t : Table κ υ) (k k' : κ) (v : υ) :
    (t.insert k v).get? k' = if k = k' then some v else t.get? k' := by
  show List.lookup k' ((k, v) :: (t.erase k).pairs) = _
  rw [List.lookup_cons]
  by_cases h : k = k'
  · simp [h]
  · have hb : (k' == k) = false := by simpa using Ne.symm h
    rw [hb]
    show (t.erase k).get? k' = _
    rw [get?_erase]
    simp [h]

end Table

end BitFlow
