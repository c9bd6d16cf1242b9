import BitFlow.Proofs.Bits.Splice

/-!
# Folding is the arithmetic of bit vectors

What an operator computes is said a second time, on bit vectors of the width of the type and without
any storage behind them (`Opcode.result`): sums, products and the bitwise operators are those of
bit vectors, quotients and remainders are those of the integers, a concatenation is taken apart
part by part. `fold` works on patterns kept in a fixed storage, cuts them to the capacity of the
type, reads them as two's complement and bounds the shift amounts; both sides agree on all
operands that are shaped as the operators are emitted (`Opcode.Fits`).

Main statements:

* `fold_eq_result` -- a folded literal has the type asked for and the bits of the result;
* `fold_eq_none_iff` -- exactly which operators on literals are left to run time;
* `fold_least_div_neg_one` -- one of them has a divisor other than zero.
-/

namespace BitFlow

/-! ## 1. Literals as bit vectors -/

/-- The pattern of a literal at width `w`. -/
def Literal.vector (a : Literal) (w : Nat) : BitVec w := BitVec.ofNat w a.bits

section Vector

variable {a : Literal} {ty : Ty}

theorem Literal.toNat_vector (ha : a.ty.holdsLiterals = true) :
    (a.vector a.ty.width).toNat = a.bits :=
  Nat.mod_eq_of_lt (Literal.bits_lt_two_pow ha)

theorem Literal.toInt_vector (ha : a.ty.holdsLiterals = true) :
    (a.vector a.ty.width).toInt = a.toInt := by
  unfold Literal.toInt
  rw [BitVec.toInt_eq_toNat_cond, toNat_vector ha, Ty.modulus_eq ha]

theorem Literal.bits_ofNat_eq (h : ty.holdsLiterals = true) (n : Nat) :
    (Literal.ofNat n ty).bits = (BitVec.ofNat ty.width n).toNat := by
  rw [bits_ofNat, Ty.modulus_eq h, BitVec.toNat_ofNat]

theorem Literal.bits_ofInt_eq (h : ty.holdsLiterals = true) (n : Int) :
    (Literal.ofInt n ty).bits = (BitVec.ofInt ty.width n).toNat := by
  have hpos : (0 : Int) < (2 ^ ty.width : Nat) := Int.natCast_pos.2 (Nat.two_pow_pos _)
  have hlt : (n % (2 ^ ty.width : Nat)).toNat < 2 ^ ty.width := by
    have := Int.emod_lt_of_pos n hpos
    omega
  unfold Literal.ofInt
  rw [bits_ofNat, Ty.modulus_eq h, BitVec.toNat_ofInt, Nat.mod_eq_of_lt hlt]

end Vector

/-! ## 2. The operators on bit vectors -/

/-- A unary operator on a bit vector. -/
def Unary.result (op : Unary) {w : Nat} (x : BitVec w) : BitVec w :=
  match op with
  | .not => ~~~x
  | .neg => -x

/-- A binary operator on bit vectors; `signed` decides how they are read where it matters. A shift
    is by the number `amount`. -/
def Binary.result (op : Binary) (signed : Bool) {w : Nat} (x y : BitVec w) (amount : Nat) :
    BitVec w :=
  match op with
  | .add => x + y
  | .sub => x - y
  | .mul => x * y
  | .div =>
      if signed then .ofInt w (x.toInt.tdiv y.toInt) else .ofNat w (x.toNat / y.toNat)
  | .rem =>
      if signed then .ofInt w (x.toInt.tmod y.toInt) else .ofNat w (x.toNat % y.toNat)
  | .and => x &&& y
  | .or => x ||| y
  | .xor => x ^^^ y
  | .shl => x <<< amount
  | .shr => if signed then x.sshiftRight amount else x >>> amount

/-- The integer that a bit vector stands for. -/
def readAs (signed : Bool) {w : Nat} (x : BitVec w) : Int := if signed then x.toInt else x.toNat

/-- A comparison of the integers that two bit vectors stand for. -/
def Relation.result (op : Relation) (signed : Bool) {w : Nat} (x y : BitVec w) : Bool :=
  let i := readAs signed x
  let j := readAs signed y
  match op with
  | .eq => decide (i = j)
  | .ne => decide (i ≠ j)
  | .lt => decide (i < j)
  | .le => decide (i ≤ j)
  | .gt => decide (i > j)
  | .ge => decide (i ≥ j)

/-- Some literals side by side, the first on top. -/
def joined : (parts : List Literal) → BitVec (totalWidth parts)
  | [] => 0#0
  | part :: parts => part.vector part.width ++ joined parts

/-- A literal at width `w`: sign-extended or zero-extended as its type says, or cut. -/
def Literal.converted (a : Literal) (w : Nat) : BitVec w :=
  if a.ty.signed then (a.vector a.width).signExtend w else (a.vector a.width).setWidth w

/-- The bits that an operator computes from literal operands at type `ty`. -/
def Opcode.result (op : Opcode) (args : List Literal) (ty : Ty) : BitVec ty.width :=
  match op, args with
  | .unary u, [a] => u.result (a.vector ty.width)
  | .binary o, [a, b] => o.result ty.signed (a.vector ty.width) (b.vector ty.width) b.bits
  | .compare r, [a, b] =>
      (BitVec.ofBool (r.result a.ty.signed (a.vector a.width) (b.vector a.width))).setWidth _
  | .concat, parts => (joined parts).setWidth _
  | .index, [base, pos] => (BitVec.ofBool ((base.vector base.width).getLsbD pos.bits)).setWidth _
  | .slice msb lsb, [base] => ((base.vector base.width).extractLsb msb lsb).setWidth _
  | .cast, [a] => a.converted _
  | _, _ => 0

/-- The operands and the type with which an operator is emitted. A width is a word, and the sum of
    the widths of some parts stops there. -/
def Opcode.Fits (op : Opcode) (args : List Literal) (ty : Ty) : Prop :=
  match op, args with
  | .unary _, [a] => a.ty = ty
  | .binary o, [a, b] => a.ty = ty ∧ (o.isShift = true ∨ b.ty = ty)
  | .compare _, [a, b] => a.ty = b.ty ∧ ty = .bit
  | .concat, part :: parts => ty = .unsigned (min (totalWidth (part :: parts)) wordMax)
  | .index, [_, _] => ty = .bit
  | .slice msb lsb, [_] => ty = .unsigned (msb - lsb + 1)
  | .cast, [_] => True
  | _, _ => False

/-! ## 3. Each family -/

/-- Beyond its leading bit a shift to the right leaves copies of the sign. -/
theorem shiftRight_of_bits_le {m : Int} {k n : Nat} (hlo : -(2 ^ k : Nat) ≤ m)
    (hhi : m < (2 ^ k : Nat)) (hn : k ≤ n) : m >>> n = m >>> k := by
  have hmono : ((2 ^ k : Nat) : Int) ≤ (2 ^ n : Nat) :=
    Int.ofNat_le.2 (Nat.pow_le_pow_right (by decide) hn)
  rw [Int.shiftRight_eq_div_pow, Int.shiftRight_eq_div_pow]
  by_cases hm : 0 ≤ m
  · rw [Int.ediv_eq_zero_of_lt hm (by omega), Int.ediv_eq_zero_of_lt hm hhi]
  · rw [Int.ediv_eq_neg_one_of_neg_of_le (by omega) (by omega),
      Int.ediv_eq_neg_one_of_neg_of_le (by omega) (by omega)]

section Families

variable {a b c : Literal} {ty : Ty}

theorem Unary.bits_fold (op : Unary) (h : ty.holdsLiterals = true) :
    (op.fold a ty).bits = (op.result (a.vector ty.width)).toNat := by
  cases op with
  | not =>
    refine (Literal.bits_ofInt_eq h _).trans (congrArg BitVec.toNat ?_)
    show BitVec.ofInt _ (-(a.bits : Int) + -1) = ~~~(BitVec.ofNat _ a.bits)
    rw [BitVec.ofInt_add, BitVec.ofInt_neg, BitVec.ofInt_natCast, BitVec.not_eq_neg_add,
      BitVec.sub_eq_add_neg, BitVec.ofInt_neg]
    rfl
  | neg =>
    refine (Literal.bits_ofInt_eq h _).trans (congrArg BitVec.toNat ?_)
    show BitVec.ofInt _ (-(a.bits : Int)) = -(BitVec.ofNat _ a.bits)
    rw [BitVec.ofInt_neg, BitVec.ofInt_natCast]

/-- The bound on the amount of an arithmetic shift loses nothing: past the width all bits are
    copies of the sign. -/
theorem Literal.shiftRight_bounded (ha : a.ty.holdsLiterals = true) (n : Nat) :
    a.toInt >>> min (min n a.width) (storageBits - 1) = a.toInt >>> n := by
  obtain ⟨hpos, hle⟩ := (Ty.holdsLiterals_iff _).1 ha
  have hw : a.width = a.ty.width := rfl
  by_cases hn : n < a.ty.width
  · rw [show min (min n a.width) (storageBits - 1) = n by omega]
  · have hhi := (a.vector a.ty.width).two_mul_toInt_lt
    have hlo := (a.vector a.ty.width).le_two_mul_toInt
    have htwice : (2 : Int) ^ a.ty.width = 2 * (2 ^ (a.ty.width - 1) : Nat) := by
      rw [Int.natCast_pow, Nat.cast_ofNat, ← Int.pow_succ', Nat.sub_add_cancel hpos]
    rw [Literal.toInt_vector ha, htwice] at hlo hhi
    -- both amounts reach the sign bit
    have hsign : ∀ k, a.ty.width - 1 ≤ k → a.toInt >>> k = a.toInt >>> (a.ty.width - 1) :=
      fun k hk => shiftRight_of_bits_le (by omega) (by omega) hk
    rw [hsign n (by omega), hsign _ (by omega)]

theorem bits_shlLiteral (ha : a.ty.holdsLiterals = true) (n : Literal) :
    (shlLiteral a n a.ty).bits = (a.vector a.ty.width <<< n.bits).toNat := by
  rw [BitVec.toNat_shiftLeft, Literal.toNat_vector ha]
  unfold shlLiteral
  split
  · rename_i hle
    have hdvd : 2 ^ a.ty.width ∣ a.bits <<< n.bits := by
      rw [Nat.shiftLeft_eq]
      exact Nat.dvd_mul_left_of_dvd (Nat.pow_dvd_pow 2 hle) _
    rw [Literal.bits_zero, Nat.mod_eq_zero_of_dvd hdvd]
  · rename_i hlt
    rw [Literal.bits_ofNat, Ty.modulus_eq ha,
      Literal.shiftDistance_of_lt_width ha (Nat.lt_of_not_le hlt)]

theorem bits_shrLiteral (ha : a.ty.holdsLiterals = true) (n : Literal) :
    (shrLiteral a n a.ty).bits = (if a.ty.signed then (a.vector a.ty.width).sshiftRight n.bits
      else a.vector a.ty.width >>> n.bits).toNat := by
  unfold shrLiteral
  split
  · rw [Literal.bits_ofInt_eq ha, Literal.shiftRight_bounded ha, ← Literal.toInt_vector ha]
    rfl
  · have hlt : a.bits < 2 ^ a.ty.width := Literal.bits_lt_two_pow ha
    rw [BitVec.toNat_ushiftRight, Literal.toNat_vector ha]
    split
    · rename_i hle
      rw [Literal.bits_zero, Nat.shiftRight_eq_zero _ _
        (Nat.lt_of_lt_of_le hlt (Nat.pow_le_pow_right (by decide) hle))]
    · rename_i hamount
      rw [Literal.bits_ofNat, Ty.modulus_eq ha,
        Literal.shiftDistance_of_lt_width ha (Nat.lt_of_not_le hamount),
        Nat.mod_eq_of_lt (Nat.lt_of_le_of_lt (Nat.shiftRight_le _ _) hlt)]

/-- Division and remainder at the type of both operands: `f` works on the integers, `g` on the
    natural numbers. -/
theorem bits_quotient {f : Int → Int → Int} {g : Nat → Nat → Nat}
    (ha : a.ty.holdsLiterals = true) (hb : b.ty = a.ty)
    (h : (if a.ty.signed then
        if Quotable a.toInt b.toInt then some (.ofInt (f a.toInt b.toInt) a.ty) else none
      else if b.bits = 0 then none else some (.ofNat (g a.bits b.bits) a.ty)) = some c) :
    c.bits = (if a.ty.signed then
        .ofInt _ (f (a.vector a.ty.width).toInt (b.vector a.ty.width).toInt)
      else .ofNat _ (g (a.vector a.ty.width).toNat (b.vector a.ty.width).toNat) :
        BitVec a.ty.width).toNat := by
  have hbh : b.ty.holdsLiterals = true := hb ▸ ha
  split at h
  · split at h
    · cases h
      rw [if_pos ‹_›, Literal.bits_ofInt_eq ha, Literal.toInt_vector ha, ← hb,
        Literal.toInt_vector hbh]
    · cases h
  · split at h
    · cases h
    · cases h
      rw [if_neg ‹_›, Literal.bits_ofNat_eq ha, Literal.toNat_vector ha, ← hb,
        Literal.toNat_vector hbh]

/-- The operands of `op` are of the type of the first, apart from a shift amount. -/
theorem Binary.bits_fold (op : Binary) (ha : a.ty.holdsLiterals = true)
    (hb : op.isShift = true ∨ b.ty = a.ty) (h : op.fold a b a.ty = some c) :
    c.bits = (op.result a.ty.signed (a.vector a.ty.width) (b.vector a.ty.width) b.bits).toNat := by
  cases op with
  | add =>
    cases h
    rw [Literal.bits_ofNat_eq ha, BitVec.ofNat_add]
    rfl
  | sub =>
    cases h
    rw [Literal.bits_ofInt_eq ha, Int.sub_eq_add_neg, BitVec.ofInt_add, BitVec.ofInt_neg,
      BitVec.ofInt_natCast, BitVec.ofInt_natCast, ← BitVec.sub_eq_add_neg]
    rfl
  | mul =>
    cases h
    rw [Literal.bits_ofNat_eq ha, BitVec.ofNat_mul]
    rfl
  | div =>
    obtain hb | hb := hb
    · cases hb
    · exact bits_quotient ha hb h
  | rem =>
    obtain hb | hb := hb
    · cases hb
    · exact bits_quotient ha hb h
  | and =>
    cases h
    rw [Literal.bits_ofNat_eq ha, BitVec.ofNat_and]
    rfl
  | or =>
    cases h
    rw [Literal.bits_ofNat_eq ha, BitVec.ofNat_or]
    rfl
  | xor =>
    cases h
    rw [Literal.bits_ofNat_eq ha, BitVec.ofNat_xor]
    rfl
  | shl =>
    cases h
    exact bits_shlLiteral ha b
  | shr =>
    cases h
    exact bits_shrLiteral ha b

theorem readAs_vector (ha : a.ty.holdsLiterals = true) :
    readAs a.ty.signed (a.vector a.ty.width) = orderKey a.ty.signed a := by
  unfold readAs orderKey
  rw [Literal.toInt_vector ha, Literal.toNat_vector ha]

/-- Patterns of one width that stand for the same integer are the same. -/
theorem readAs_inj (signed : Bool) {w : Nat} {x y : BitVec w} :
    readAs signed x = readAs signed y ↔ x = y := by
  cases signed with
  | true => exact BitVec.toInt_inj
  | false => exact Int.ofNat_inj.trans BitVec.toNat_inj

theorem Relation.holds_eq (op : Relation) (ha : a.ty.holdsLiterals = true) (hb : a.ty = b.ty) :
    op.holds a b = op.result a.ty.signed (a.vector a.ty.width) (b.vector a.ty.width) := by
  have hbh : b.ty.holdsLiterals = true := hb ▸ ha
  have hkey : orderKey (a.ty.signed && b.ty.signed) = orderKey a.ty.signed := by
    rw [← hb, Bool.and_self]
  have hread := readAs_vector hbh
  rw [← hb] at hread
  have hsame : a.bits = b.bits ↔ readAs a.ty.signed (a.vector a.ty.width) =
      readAs a.ty.signed (b.vector a.ty.width) := by
    rw [readAs_inj, ← BitVec.toNat_inj, Literal.toNat_vector ha, hb, Literal.toNat_vector hbh]
  unfold Relation.holds Relation.result
  cases op with
  | eq => exact decide_eq_decide.2 hsame
  | ne => exact (congrArg Bool.not (decide_eq_decide.2 hsame)).trans (decide_not ..).symm
  | _ => simp only [hkey, readAs_vector ha, hread, GT.gt, GE.ge]

end Families

/-! ## 4. Concatenation -/

/-- What is on the left of some parts is moved up by all their bits. -/
theorem foldl_joined (parts : List Literal) (hparts : ∀ p ∈ parts, p.ty.holdsLiterals = true)
    (acc : Nat) : parts.foldl (fun acc p => acc <<< p.width + p.bits) acc =
      acc <<< totalWidth parts + (joined parts).toNat := by
  induction parts generalizing acc with
  | nil => rfl
  | cons part parts ih =>
    have hpart := hparts part (List.mem_cons_self ..)
    have hvec : (part.vector part.width).toNat = part.bits := Literal.toNat_vector hpart
    have happ : (joined (part :: parts)).toNat =
        part.bits <<< totalWidth parts + (joined parts).toNat := by
      show (part.vector part.width ++ joined parts).toNat = _
      rw [BitVec.toNat_append, hvec, Nat.shiftLeft_add_eq_or_of_lt (joined parts).isLt]
    rw [List.foldl_cons, ih (fun p hp => hparts p (List.mem_cons_of_mem _ hp)), happ,
      totalWidth_cons, Nat.shiftLeft_add, Nat.shiftLeft_eq, Nat.shiftLeft_eq, Nat.add_mul,
      ← Nat.shiftLeft_eq, ← Nat.shiftLeft_eq, ← Nat.shiftLeft_eq, Nat.add_assoc]

theorem joinBits_eq {parts : List Literal} (hparts : ∀ p ∈ parts, p.ty.holdsLiterals = true) :
    joinBits parts = (joined parts).toNat := by
  unfold joinBits
  rw [foldl_joined parts hparts, Nat.zero_shiftLeft, Nat.zero_add]

/-! ## 5. All operators -/

section Fold

variable {op : Opcode} {args : List Literal} {ty : Ty} {c : Literal}

/-- A truth value as a literal and as a vector. -/
theorem bits_ofBool_eq (b : Bool) :
    (Literal.ofBool b).bits = ((BitVec.ofBool b).setWidth Ty.bit.width).toNat := by
  cases b <;> rfl

theorem Literal.bit_eq {a : Literal} (ha : a.ty.holdsLiterals = true) (k : Nat) :
    a.bit k = (a.vector a.width).getLsbD k := by
  unfold Literal.bit Literal.vector
  rw [BitVec.getLsbD_ofNat]
  by_cases hk : k < a.width
  · rw [shiftDistance_of_lt_width ha hk]
  · rw [decide_eq_false hk, Bool.false_and, Bool.false_and]

theorem Literal.bits_slice_eq {a : Literal} (ha : a.ty.holdsLiterals = true) {msb lsb : Nat}
    (hl : lsb ≤ msb) (hm : msb < a.width) :
    ((a.slice msb lsb).reinterpret (.unsigned (msb - lsb + 1))).bits =
      (((a.vector a.width).extractLsb msb lsb).setWidth (msb - lsb + 1)).toNat := by
  have hvec : (a.vector a.width).toNat = a.bits := Literal.toNat_vector ha
  have hm' : msb < a.ty.width := hm
  have hty : (Ty.unsigned (msb - lsb + 1)).holdsLiterals = true :=
    Ty.holdsLiterals_unsigned ha (by omega) (by omega)
  show (a.slice msb lsb).bits % (Ty.unsigned (msb - lsb + 1)).modulus = _
  rw [bits_slice hl hm ha, Ty.modulus_eq hty, BitVec.toNat_setWidth, BitVec.extractLsb_toNat, hvec]
  rfl

theorem Literal.bits_resize_eq {a : Literal} (ha : a.ty.holdsLiterals = true)
    (h : ty.holdsLiterals = true) : (a.resize ty).bits = (a.converted ty.width).toNat := by
  unfold Literal.resize Literal.converted
  split
  · rw [bits_ofInt_eq h, ← toInt_vector ha]
    rfl
  · rw [bits_ofNat, Ty.modulus_eq h, BitVec.toNat_setWidth]
    exact congrArg (· % _) (toNat_vector ha).symm

theorem fold_concat (part : Literal) (parts : List Literal) (h : ty.holdsLiterals = true) :
    fold .concat (part :: parts) ty =
      if totalWidth (part :: parts) ≤ ty.width ∧ totalWidth (part :: parts) ≤ storageBits then
        some (.ofNat (joinBits (part :: parts)) ty)
      else none := by
  simp [fold, h]

theorem fold_index (base pos : Literal) :
    fold .index [base, pos] .bit =
      if pos.bits < base.width then some (.ofBool (base.bit pos.bits)) else none := rfl

/-- **Folding is sound**: a literal folded from operands of an emitted shape has the type asked
    for, and its bits are those of the result on bit vectors. -/
theorem fold_eq_result (hfit : op.Fits args ty)
    (hargs : ∀ a ∈ args, a.ty.holdsLiterals = true) (h : fold op args ty = some c) :
    c.ty = ty ∧ c.bits = (op.result args ty).toNat := by
  have hty := holdsLiterals_of_fold h
  unfold Opcode.Fits at hfit
  split at hfit
  · rename_i u a
    rw [fold_unary u a hty] at h
    cases h
    exact ⟨by cases u <;> rfl, Unary.bits_fold u hty⟩
  · rename_i o a b
    obtain ⟨rfl, hb⟩ := hfit
    rw [fold_binary o a b hty] at h
    exact ⟨Binary.ty_fold h, Binary.bits_fold o hty hb h⟩
  · rename_i r a b
    obtain ⟨hab, rfl⟩ := hfit
    rw [fold_compare r a b hty] at h
    cases h
    refine ⟨rfl, ?_⟩
    rw [Relation.holds_eq r (hargs a (by simp)) hab]
    exact bits_ofBool_eq _
  · rename_i part parts
    rw [fold_concat part parts hty] at h
    split at h
    · cases h
      refine ⟨rfl, ?_⟩
      rw [Literal.bits_ofNat, Ty.modulus_eq hty, joinBits_eq hargs]
      exact (BitVec.toNat_setWidth _ _).symm
    · cases h
  · rename_i base pos
    cases hfit
    rw [fold_index base pos] at h
    split at h
    · cases h
      refine ⟨rfl, ?_⟩
      rw [Literal.bit_eq (hargs base (by simp))]
      exact bits_ofBool_eq _
    · cases h
  · rename_i msb lsb base
    cases hfit
    have hbase := hargs base (by simp)
    simp only [fold, hty, if_true] at h
    split at h
    · rename_i hin
      cases h
      exact ⟨rfl, Literal.bits_slice_eq hbase hin.1 hin.2⟩
    · cases h
  · rename_i a
    rw [fold_cast a hty] at h
    cases h
    exact ⟨Literal.ty_resize _ _, Literal.bits_resize_eq (hargs a (by simp)) hty⟩
  · exact hfit.elim

/-- The quotient of the least value of four bits by minus one wraps around to itself. -/
theorem fold_eq_result_least_four :
    (Literal.ofInt (-8) ⟨4, true⟩).ty = ⟨4, true⟩ ∧ (Literal.ofInt (-8) ⟨4, true⟩).bits =
      ((Opcode.binary .div).result [.ofInt (-8) ⟨4, true⟩, .ofInt (-1) ⟨4, true⟩]
        ⟨4, true⟩).toNat := by
  have hfit : (Opcode.binary .div).Fits [.ofInt (-8) ⟨4, true⟩, .ofInt (-1) ⟨4, true⟩] ⟨4, true⟩ :=
    ⟨rfl, Or.inr rfl⟩
  exact fold_eq_result hfit (by decide) (by decide)

/-! ## 6. What is left alone -/

/-- An operator on literals that is left to run time: a division by zero, the one quotient that
    the storage does not hold, a position outside the indexed literal, more bits than a literal
    has, a slice outside the literal, and a conversion to a type without literals. -/
def Opcode.LeftAlone (op : Opcode) (args : List Literal) (ty : Ty) : Prop :=
  match op, args with
  | .binary .div, [a, b] | .binary .rem, [a, b] =>
      b.bits = 0 ∨ ty = ⟨storageBits, true⟩ ∧ a.toInt = -2 ^ (storageBits - 1) ∧ b.toInt = -1
  | .concat, parts => storageBits < totalWidth parts
  | .index, [base, pos] => base.width ≤ pos.bits
  | .slice msb lsb, [base] => ¬ (lsb ≤ msb ∧ msb < base.width)
  | .cast, [_] => ty.holdsLiterals = false
  | _, _ => False

theorem Literal.toInt_eq_zero_iff (a : Literal) : a.toInt = 0 ↔ a.bits = 0 := by
  have hlt := a.bits_lt
  unfold Literal.toInt
  split <;> omega

/-- The least integer of the storage is a value of the widest types only. -/
theorem Literal.width_of_least {a : Literal} (ha : a.ty.holdsLiterals = true)
    (h : a.toInt = leastStored) : a.ty.width = storageBits := by
  have hlo := (a.vector a.ty.width).le_two_mul_toInt
  rw [toInt_vector ha, h] at hlo
  have hpow : (2 : Int) ^ storageBits ≤ 2 ^ a.ty.width := by
    have hleast : 2 * leastStored = -2 ^ storageBits := by decide
    omega
  have hle : storageBits ≤ a.ty.width :=
    (Nat.pow_le_pow_iff_right (by decide : 1 < 2)).1 (by exact_mod_cast hpow)
  exact Nat.le_antisymm ((Ty.holdsLiterals_iff _).1 ha).2 hle

theorem not_quotable_iff {a b : Literal} : ¬ Quotable a.toInt b.toInt ↔
    b.bits = 0 ∨ a.toInt = leastStored ∧ b.toInt = -1 := by
  unfold Quotable
  rw [not_and_or, not_not, not_not, b.toInt_eq_zero_iff]

/-- When a division or a remainder, `f` on signed operands and `g` on unsigned ones, is left
    alone. -/
theorem quotient_eq_none_iff {a b f g : Literal} (ha : a.ty.holdsLiterals = true) :
    (if a.ty.signed then if Quotable a.toInt b.toInt then some f else none
      else if b.bits = 0 then none else some g) = none ↔
      b.bits = 0 ∨ a.ty = ⟨storageBits, true⟩ ∧ a.toInt = -2 ^ (storageBits - 1) ∧
        b.toInt = -1 := by
  have hleast : leastStored = -2 ^ (storageBits - 1) := by decide
  by_cases hs : a.ty.signed = true
  · have htype : a.toInt = leastStored → a.ty = ⟨storageBits, true⟩ := by
      intro h
      rw [← Literal.width_of_least ha h, ← hs]
    rw [if_pos hs, ← hleast, ite_eq_right_iff]
    simp only [reduceCtorEq, imp_false, not_quotable_iff]
    exact or_congr Iff.rfl ⟨fun h => ⟨htype h.1, h⟩, fun h => h.2⟩
  · have hne : a.ty ≠ ⟨storageBits, true⟩ := fun h => hs (by rw [h])
    rw [if_neg hs]
    simp [hne]

/-- Some parts of literal types are folded exactly if their bits fit in the storage. -/
theorem fold_concat_eq_none_iff {part : Literal} {parts : List Literal}
    (hparts : ∀ p ∈ part :: parts, p.ty.holdsLiterals = true) :
    fold .concat (part :: parts) (.unsigned (min (totalWidth (part :: parts)) wordMax)) = none ↔
      storageBits < totalWidth (part :: parts) := by
  have hpos : 1 ≤ totalWidth (part :: parts) := by
    have hw : 1 ≤ part.width := ((Ty.holdsLiterals_iff _).1 (hparts part (by simp))).1
    rw [totalWidth_cons]
    omega
  have hword : storageBits < wordMax := by decide
  by_cases hle : totalWidth (part :: parts) ≤ storageBits
  · have hty : Ty.holdsLiterals (.unsigned (totalWidth (part :: parts))) = true :=
      (Ty.holdsLiterals_iff _).2 ⟨hpos, hle⟩
    rw [Nat.min_eq_left (Nat.le_trans hle (Nat.le_of_lt hword)), fold_concat part parts hty,
      if_pos ⟨Nat.le_refl _, hle⟩]
    simpa using hle
  · have hty : Ty.holdsLiterals (.unsigned (min (totalWidth (part :: parts)) wordMax)) = false := by
      rw [← Bool.not_eq_true, Ty.holdsLiterals_iff]
      show ¬ (1 ≤ min _ wordMax ∧ min _ wordMax ≤ storageBits)
      omega
    rw [fold_of_not_holdsLiterals _ _ hty]
    simpa using hle

/-- **What is left to run time**, exactly: operands of an emitted shape are folded unless the
    operator is among those of `Opcode.LeftAlone`. -/
theorem fold_eq_none_iff (hfit : op.Fits args ty)
    (hargs : ∀ a ∈ args, a.ty.holdsLiterals = true) :
    fold op args ty = none ↔ op.LeftAlone args ty := by
  unfold Opcode.Fits at hfit
  split at hfit
  · rename_i u a
    cases hfit
    rw [fold_unary u a (hargs a (by simp))]
    exact iff_of_false (by simp) id
  · rename_i o a b
    obtain ⟨rfl, -⟩ := hfit
    have ha := hargs a (by simp)
    rw [fold_binary o a b ha]
    cases o with
    | div => exact quotient_eq_none_iff ha
    | rem => exact quotient_eq_none_iff ha
    | _ => exact iff_of_false (by simp [Binary.fold]) id
  · rename_i r a b
    obtain ⟨-, rfl⟩ := hfit
    rw [fold_compare r a b (by decide)]
    exact iff_of_false (by simp) id
  · rename_i part parts
    cases hfit
    exact fold_concat_eq_none_iff hargs
  · rename_i base pos
    cases hfit
    rw [fold_index base pos]
    simp [Opcode.LeftAlone]
  · rename_i msb lsb base
    cases hfit
    have hbase := hargs base (by simp)
    show fold (.slice msb lsb) [base] _ = none ↔ ¬ (lsb ≤ msb ∧ msb < base.width)
    by_cases hin : lsb ≤ msb ∧ msb < base.width
    · rw [fold_slice hin.1 hin.2 hbase]
      exact iff_of_false (by simp) (not_not_intro hin)
    · simp [fold, hin]
  · rename_i a
    show fold .cast [a] ty = none ↔ ty.holdsLiterals = false
    cases hty : ty.holdsLiterals with
    | false => simp [fold_of_not_holdsLiterals _ _ hty]
    | true => simp [fold_cast a hty]
  · exact hfit.elim

/-- A position outside the indexed literal. -/
theorem fold_eq_none_iff_outside :
    fold .index [.ofNat 5 (.unsigned 4), .ofNat 9 (.unsigned 8)] .bit = none := by
  have hfit : Opcode.index.Fits [.ofNat 5 (.unsigned 4), .ofNat 9 (.unsigned 8)] .bit := rfl
  have houtside : (4 : Nat) ≤ 9 := by decide
  exact (fold_eq_none_iff hfit (by decide)).2 houtside

/-- **The least value of the widest signed type over minus one is left alone**, though the divisor
    is not zero; at a narrower type the quotient wraps around. -/
theorem fold_least_div_neg_one :
    fold (.binary .div) [.ofInt (-2 ^ 127) ⟨128, true⟩, .ofInt (-1) ⟨128, true⟩] ⟨128, true⟩ =
      none ∧ (Literal.ofInt (-1) ⟨128, true⟩).bits ≠ 0 ∧
    fold (.binary .div) [.ofInt (-2 ^ 126) ⟨127, true⟩, .ofInt (-1) ⟨127, true⟩] ⟨127, true⟩ =
      some (.ofInt (-2 ^ 126) ⟨127, true⟩) := by
  decide

end Fold

end BitFlow
