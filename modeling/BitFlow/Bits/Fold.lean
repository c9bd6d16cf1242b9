import BitFlow.Bits.Literal
import BitFlow.Bits.Opcode

/-!
# Folding operators over literals

`fold op args ty` is the literal that `op` computes from literal operands at type `ty`, or `none`
if it is left to run time. Arithmetic wraps at the width of the result. Left alone are results
that no literal holds, a division without a representable quotient, a bit position outside the
indexed literal, and operand lists of the wrong shape.

Main statements: `fold_of_not_holdsLiterals`, and one equation for each family of operators.
-/

namespace BitFlow

/-! ## 1. Division -/

/-- The least integer of the storage; its quotient by `-1` is the one that does not fit. -/
def leastStored : Int := -(Nat.pow 2 (storageBits - 1) : Nat)

/-- Whether `a / b` has a quotient in the storage. -/
def Quotable (a b : Int) : Prop := b ≠ 0 ∧ ¬ (a = leastStored ∧ b = -1)

instance (a b : Int) : Decidable (Quotable a b) := by
  unfold Quotable
  infer_instance

/-- The quotient rounded toward zero at type `ty`; the signedness of `ty` decides how the
    operands are read. -/
def divLiteral (a b : Literal) (ty : Ty) : Option Literal :=
  if ty.signed then
    if Quotable a.toInt b.toInt then some (.ofInt (a.toInt.tdiv b.toInt) ty) else none
  else
    if b.bits = 0 then none else some (.ofNat (a.bits / b.bits) ty)

/-- The remainder that belongs to `divLiteral`; it has the sign of the dividend. -/
def remLiteral (a b : Literal) (ty : Ty) : Option Literal :=
  if ty.signed then
    if Quotable a.toInt b.toInt then some (.ofInt (a.toInt.tmod b.toInt) ty) else none
  else
    if b.bits = 0 then none else some (.ofNat (a.bits % b.bits) ty)

/-! ## 2. Shifts -/

/-- A shift to the left; an amount of the width or more leaves no bit. -/
def shlLiteral (a amount : Literal) (ty : Ty) : Literal :=
  if a.width ≤ amount.bits then .zero ty else .ofNat (a.bits <<< shiftDistance amount.bits) ty

/-- A shift to the right: arithmetic for a signed operand, logical for any other. An amount of
    the width or more leaves copies of the sign, or no bit. -/
def shrLiteral (a amount : Literal) (ty : Ty) : Literal :=
  if a.ty.signed then
    .ofInt (a.toInt >>> min (min amount.bits a.width) (storageBits - 1)) ty
  else if a.width ≤ amount.bits then .zero ty
  else .ofNat (a.bits >>> shiftDistance amount.bits) ty

/-! ## 3. The families -/

/-- A unary operator at type `ty`. -/
def Unary.fold (op : Unary) (a : Literal) (ty : Ty) : Literal :=
  match op with
  | .not => .ofInt (-(a.bits : Int) - 1) ty
  | .neg => .ofInt (-(a.bits : Int)) ty

/-- A binary operator at type `ty`. -/
def Binary.fold (op : Binary) (a b : Literal) (ty : Ty) : Option Literal :=
  match op with
  | .add => some (.ofNat (a.bits + b.bits) ty)
  | .sub => some (.ofInt (a.bits - b.bits) ty)
  | .mul => some (.ofNat (a.bits * b.bits) ty)
  | .div => divLiteral a b ty
  | .rem => remLiteral a b ty
  | .and => some (.ofNat (a.bits &&& b.bits) ty)
  | .or => some (.ofNat (a.bits ||| b.bits) ty)
  | .xor => some (.ofNat (a.bits ^^^ b.bits) ty)
  | .shl => some (shlLiteral a b ty)
  | .shr => some (shrLiteral a b ty)

/-- The integer that the order of two literals compares: two's complement only if both are
    signed. -/
def orderKey (bothSigned : Bool) (a : Literal) : Int :=
  if bothSigned then a.toInt else a.bits

/-- Whether a comparison holds; equality is that of the patterns. -/
def Relation.holds (op : Relation) (a b : Literal) : Bool :=
  let key := orderKey (a.ty.signed && b.ty.signed)
  match op with
  | .eq => a.bits == b.bits
  | .ne => a.bits != b.bits
  | .lt => decide (key a < key b)
  | .le => decide (key a ≤ key b)
  | .gt => decide (key b < key a)
  | .ge => decide (key b ≤ key a)

/-- The sum of the widths of some literals. -/
def totalWidth (parts : List Literal) : Nat := parts.foldr (fun part n => part.width + n) 0

/-- The patterns of some literals side by side, the first on top. -/
def joinBits (parts : List Literal) : Nat :=
  parts.foldl (fun acc part => acc <<< part.width + part.bits) 0

/-! ## 4. All operators -/

/-- The literal that an operator computes from literal operands at type `ty`. -/
def fold (op : Opcode) (args : List Literal) (ty : Ty) : Option Literal :=
  if ty.holdsLiterals then
    match op, args with
    | .unary u, [a] => some (u.fold a ty)
    | .binary o, [a, b] => o.fold a b ty
    | .compare r, [a, b] => some (.ofBool (r.holds a b))
    | .concat, first :: rest =>
        let parts := first :: rest
        if totalWidth parts ≤ ty.width ∧ totalWidth parts ≤ storageBits then
          some (.ofNat (joinBits parts) ty)
        else none
    | .index, [base, pos] =>
        if pos.bits < base.width then some (.ofBool (base.bit pos.bits)) else none
    | .slice msb lsb, [base] =>
        if lsb ≤ msb ∧ msb < base.width then some ((base.slice msb lsb).reinterpret ty) else none
    | .select, [cond, yes, no] => some (if cond.isTrue then yes else no)
    | .cast, [a] => some (a.resize ty)
    | _, _ => none
  else none

theorem fold_of_not_holdsLiterals (op : Opcode) (args : List Literal) {ty : Ty}
    (h : ty.holdsLiterals = false) : fold op args ty = none := by
  simp [fold, h]

theorem fold_unary (u : Unary) (a : Literal) {ty : Ty} (h : ty.holdsLiterals = true) :
    fold (.unary u) [a] ty = some (u.fold a ty) := by
  simp [fold, h]

theorem fold_binary (o : Binary) (a b : Literal) {ty : Ty} (h : ty.holdsLiterals = true) :
    fold (.binary o) [a, b] ty = o.fold a b ty := by
  simp [fold, h]

theorem fold_compare (r : Relation) (a b : Literal) {ty : Ty} (h : ty.holdsLiterals = true) :
    fold (.compare r) [a, b] ty = some (.ofBool (r.holds a b)) := by
  simp [fold, h]

theorem fold_cast (a : Literal) {ty : Ty} (h : ty.holdsLiterals = true) :
    fold .cast [a] ty = some (a.resize ty) := by
  simp [fold, h]

end BitFlow
