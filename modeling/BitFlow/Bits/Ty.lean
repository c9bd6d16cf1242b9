/-!
# Bit-vector types

A type is a width in bits and a signedness. Literals are stored in at most 128 bits, whatever the
width of their type; `Ty.capacity` is the number of bits a literal of the type really has.

Main statements:

* `shiftDistance_of_lt` -- a shift inside the storage is as long as it is asked for;
* `Ty.capacity_eq_width` -- up to 128 bits the capacity is the width;
* `Ty.modulus_pos` -- there is a pattern, even of no bits;
* `Ty.holdsLiterals_iff` -- the types with literals are those of width 1 to 128.
-/

namespace BitFlow

/-- The number of bits in which a literal is stored. -/
def storageBits : Nat := 128

/-- The distance over which a pattern is shifted where `n` is asked for: the distances of the
    storage go round. -/
def shiftDistance (n : Nat) : Nat := n % storageBits

theorem shiftDistance_of_lt {n : Nat} (h : n < storageBits) : shiftDistance n = n :=
  Nat.mod_eq_of_lt h

/-- The largest width, position or count that a 32-bit word holds. -/
def wordMax : Nat := 4294967295

/-- A bit-vector type: its width in bits, and whether its values are read as two's complement. -/
structure Ty where
  width : Nat
  signed : Bool
  deriving DecidableEq, Repr, Inhabited

namespace Ty

/-! ## 1. The two families and the truth type -/

/-- The unsigned type of the given width. -/
def unsigned (width : Nat) : Ty := ⟨width, false⟩

/-- The type of truth values: one unsigned bit. -/
def bit : Ty := unsigned 1

/-- Whether a type is the type of truth values. -/
def isBit (ty : Ty) : Bool := ty == bit

@[simp] theorem isBit_iff (ty : Ty) : ty.isBit = true ↔ ty = bit := by
  simp [isBit]

/-! ## 2. Capacity -/

/-- The bits that a literal of the type has: its width, cut at the storage size. -/
def capacity (ty : Ty) : Nat := min ty.width storageBits

/-- The number of bit patterns of that capacity. -/
def modulus (ty : Ty) : Nat := Nat.pow 2 ty.capacity

/-- The pattern in which every bit is set. -/
def mask (ty : Ty) : Nat := ty.modulus - 1

/-- Whether every value of the type can be stored in a literal, and there is one bit at least. -/
def holdsLiterals (ty : Ty) : Bool := decide (1 ≤ ty.width) && decide (ty.width ≤ storageBits)

theorem holdsLiterals_iff (ty : Ty) :
    ty.holdsLiterals = true ↔ 1 ≤ ty.width ∧ ty.width ≤ storageBits := by
  simp [holdsLiterals]

theorem modulus_pos (ty : Ty) : 0 < ty.modulus := Nat.pow_pos (by decide)

theorem capacity_eq_width {ty : Ty} (h : ty.width ≤ storageBits) : ty.capacity = ty.width :=
  Nat.min_eq_left h

/-! ## 3. Text -/

/-- The written form: `bit`, or the letter of the signedness followed by the width. -/
def text (ty : Ty) : String :=
  if ty.isBit then "bit"
  else (if ty.signed then "i" else "u") ++ toString ty.width

end Ty

end BitFlow
