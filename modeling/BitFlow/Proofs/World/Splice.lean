import BitFlow.Proofs.Bits.Splice
import BitFlow.Proofs.World.Basic

/-!
# Parts of literals in a world

What a variable holds once some of its bits are replaced, and how the operators of a world compute
it: by slices, a concatenation and a cast.

Main statement: `World.apply_splice` -- the old bits above, the new ones, and the old bits below,
side by side, are the result in every world.
-/

namespace BitFlow

/-- What a variable that holds `a` holds once `c` is stored into `ranges` of it: `c` itself, or `a`
    with the bits of the range replaced. -/
def Literal.stored (a : Literal) : List BitRange → Literal → Literal
  | [], c => c
  | r :: _, c => a.splice r c

namespace World

variable (w : World)

/-- The bits of `a` above the range, if there are any. -/
def above (a : Literal) (r : BitRange) : List Literal :=
  if r.msb + 1 < a.width then
    [w.apply (.slice (a.width - 1) (r.msb + 1)) [a] (.unsigned (a.width - 1 - (r.msb + 1) + 1))]
  else []

/-- The bits of `a` below the range, if there are any. -/
def below (a : Literal) (r : BitRange) : List Literal :=
  if 0 < r.lsb then [w.apply (.slice (r.lsb - 1) 0) [a] (.unsigned (r.lsb - 1 - 0 + 1))] else []

variable {w : World} {a c : Literal} {r : BitRange}

theorem above_eq (ha : a.ty.holdsLiterals = true) : w.above a r = a.above r := by
  unfold above Literal.above
  split
  · rw [w.apply_fold (.slice _ _) trivial (fold_slice (by omega) (by omega) ha)]
  · rfl

theorem below_eq (hr : r.Within a.width) (ha : a.ty.holdsLiterals = true) :
    w.below a r = a.below r := by
  have hl : r.lsb ≤ r.msb := hr.1
  have hm : r.msb < a.width := hr.2
  unfold below Literal.below
  split
  · rw [w.apply_fold (.slice _ _) trivial (fold_slice (by omega) (by omega) ha)]
  · rfl

/-- **The parts side by side are the literal with its bits replaced.** -/
theorem apply_splice (hr : r.Within a.width) (ha : a.ty.holdsLiterals = true)
    (hc : c.width = r.width) :
    w.apply .cast [w.apply .concat (w.above a r ++ c :: w.below a r) (.unsigned a.width)] a.ty =
      a.splice r c := by
  obtain ⟨joined, hjoined, -, hcast⟩ := fold_parts hr ha hc
  rw [above_eq ha, below_eq hr ha, w.apply_fold .concat trivial hjoined,
    w.apply_fold .cast trivial hcast]

end World

end BitFlow
