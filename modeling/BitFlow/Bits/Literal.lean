import BitFlow.Bits.Ty

/-!
# Literals

A literal is a type together with a bit pattern, a number below the modulus of the type. The pattern
is kept zero-extended; `Literal.toInt` reads it as two's complement.

Main statements:

* `Literal.ext_bits` -- a literal is determined by its type and its pattern;
* `Literal.bits_ofNat` -- building a literal reduces modulo the number of patterns;
* `Literal.ofNat_bits` -- a literal is rebuilt from its own pattern.
-/

namespace BitFlow

/-- A bit pattern of a given type. -/
structure Literal where
  ty : Ty
  bits : Nat
  bits_lt : bits < ty.modulus
  deriving DecidableEq, Repr

namespace Literal

/-! ## 1. Building literals -/

theorem ext_bits {a b : Literal} (hty : a.ty = b.ty) (hbits : a.bits = b.bits) : a = b := by
  cases a
  cases b
  cases hty
  cases hbits
  rfl

/-- The literal of type `ty` whose pattern is `n` cut to the capacity of the type. -/
def ofNat (n : Nat) (ty : Ty) : Literal :=
  ⟨ty, n % ty.modulus, Nat.mod_lt _ ty.modulus_pos⟩

/-- The literal of type `ty` that stands for `n` in two's complement. -/
def ofInt (n : Int) (ty : Ty) : Literal :=
  ofNat (n % (ty.modulus : Int)).toNat ty

/-- The truth value `b`. -/
def ofBool (b : Bool) : Literal := ofNat b.toNat .bit

/-- The literal of the type with no bit set. -/
def zero (ty : Ty) : Literal := ofNat 0 ty

instance : Inhabited Literal := ⟨zero .bit⟩

@[simp] theorem ty_ofNat (n : Nat) (ty : Ty) : (ofNat n ty).ty = ty := rfl

@[simp] theorem ty_ofInt (n : Int) (ty : Ty) : (ofInt n ty).ty = ty := rfl

@[simp] theorem ty_ofBool (b : Bool) : (ofBool b).ty = .bit := rfl

@[simp] theorem ty_zero (ty : Ty) : (zero ty).ty = ty := rfl

@[simp] theorem bits_ofNat (n : Nat) (ty : Ty) : (ofNat n ty).bits = n % ty.modulus := rfl

@[simp] theorem bits_ofBool (b : Bool) : (ofBool b).bits = b.toNat := by
  cases b <;> rfl

@[simp] theorem bits_zero (ty : Ty) : (zero ty).bits = 0 := Nat.zero_mod _

@[simp] theorem ofNat_bits (a : Literal) : ofNat a.bits a.ty = a :=
  ext_bits rfl (Nat.mod_eq_of_lt a.bits_lt)

/-! ## 2. Readings -/

/-- The width of the literal's type. -/
def width (a : Literal) : Nat := a.ty.width

/-- The pattern read as two's complement: the upper half of the patterns is negative. The one
    pattern of no bits is zero. -/
def toInt (a : Literal) : Int :=
  if 2 * a.bits < a.ty.modulus then a.bits else a.bits - a.ty.modulus

/-- A literal is true when some bit is set. -/
def isTrue (a : Literal) : Bool := a.bits != 0

/-- Bit `k` counted from the least significant one; no bit is set outside the width. Where the width
    exceeds the storage, the position goes round. -/
def bit (a : Literal) (k : Nat) : Bool :=
  decide (k < a.width) && a.bits.testBit (shiftDistance k)

/-- No position in a literal that the storage holds goes round. -/
theorem shiftDistance_of_lt_width {a : Literal} (ha : a.ty.holdsLiterals = true) {k : Nat}
    (hk : k < a.width) : shiftDistance k = k :=
  BitFlow.shiftDistance_of_lt (Nat.lt_of_lt_of_le hk ((Ty.holdsLiterals_iff _).1 ha).2)

/-- The pattern as a position, if a 32-bit word holds it. -/
def position? (a : Literal) : Option Nat := if a.bits ≤ wordMax then some a.bits else none

@[simp] theorem isTrue_ofBool (b : Bool) : (ofBool b).isTrue = b := by
  cases b <;> rfl

/-! ## 3. Conversions -/

/-- The bits from `lsb` up to `msb` as an unsigned literal. Beyond the storage `lsb` goes round. -/
def slice (a : Literal) (msb lsb : Nat) : Literal :=
  ofNat (a.bits >>> shiftDistance lsb) (.unsigned (msb - lsb + 1))

/-- The literal under another type: a signed one is sign-extended, any other zero-extended, and
    what exceeds the new capacity is cut. -/
def resize (a : Literal) (ty : Ty) : Literal :=
  if a.ty.signed then ofInt a.toInt ty else ofNat a.bits ty

/-- The same pattern under another type. -/
def reinterpret (a : Literal) (ty : Ty) : Literal := ofNat a.bits ty

@[simp] theorem ty_slice (a : Literal) (msb lsb : Nat) :
    (a.slice msb lsb).ty = .unsigned (msb - lsb + 1) := rfl

@[simp] theorem ty_resize (a : Literal) (ty : Ty) : (a.resize ty).ty = ty := by
  unfold resize
  split <;> rfl

@[simp] theorem ty_reinterpret (a : Literal) (ty : Ty) : (a.reinterpret ty).ty = ty := rfl

/-! ## 4. Text -/

/-- The written form: the value in the sense of the type, a colon, and the type. -/
def text (a : Literal) : String :=
  (if a.ty.signed then toString a.toInt else toString a.bits) ++ ":" ++ a.ty.text

end Literal

end BitFlow
