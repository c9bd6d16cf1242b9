/-!
# Ranges of bits

A range names neighbouring bits by its two ends, the more significant one first.

Main statement: `BitRange.above_add_width_add_below` -- a range inside a pattern divides it into the
bits above, those of the range, and the bits below.
-/

namespace BitFlow

/-- The bits from `lsb` up to `msb`. -/
structure BitRange where
  msb : Nat
  lsb : Nat
  deriving DecidableEq, Repr

namespace BitRange

/-- The number of bits of a range. -/
def width (r : BitRange) : Nat := r.msb - r.lsb + 1

/-- Whether a range is in order and lies inside a pattern of `width` bits. -/
def Within (r : BitRange) (width : Nat) : Prop := r.lsb ≤ r.msb ∧ r.msb < width

instance (r : BitRange) (width : Nat) : Decidable (r.Within width) := by
  unfold Within
  infer_instance

theorem above_add_width_add_below {r : BitRange} {width : Nat} (h : r.Within width) :
    (width - (r.msb + 1)) + r.width + r.lsb = width := by
  have hl : r.lsb ≤ r.msb := h.1
  have hm : r.msb < width := h.2
  unfold BitRange.width
  omega

end BitRange

end BitFlow
