import BitFlow.Bits.Range
import BitFlow.Proofs.Bits.Fold
import Mathlib.Algebra.Group.Nat.Defs
import Mathlib.Data.Nat.Bitwise

/-!
# Parts of literals

The literal with some of its bits replaced by others, and how folding computes it: the old bits
above the range, the new ones and the old bits below, side by side and under the type of the whole.

Main statements: `Literal.bits_splice` -- the pattern of the result; `Literal.above_splice`,
`Literal.bits_slice_splice`, `Literal.below_splice` -- its slices read back what was put together;
`fold_parts` -- the parts side by side are the result.
-/

namespace BitFlow

/-! ## 1. Replacing bits -/

/-- The literal `a` with the bits of `r` replaced by those of `c`. -/
def Literal.splice (a : Literal) (r : BitRange) (c : Literal) : Literal :=
  .ofNat (2 ^ (r.msb + 1) * (a.bits >>> (r.msb + 1)) + (2 ^ r.lsb * c.bits + a.bits % 2 ^ r.lsb)) a.ty

@[simp] theorem Literal.ty_splice (a : Literal) (r : BitRange) (c : Literal) :
    (a.splice r c).ty = a.ty := rfl

/-- The pattern in which exactly the bits of the range are set. -/
def BitRange.field (r : BitRange) : Nat := (2 ^ r.width - 1) <<< r.lsb

theorem BitRange.testBit_field {r : BitRange} (hr : r.lsb ≤ r.msb) (k : Nat) :
    r.field.testBit k = decide (r.lsb ≤ k ∧ k ≤ r.msb) := by
  unfold field
  rw [Nat.testBit_shiftLeft, Nat.testBit_two_pow_sub_one, ← Bool.decide_and]
  refine decide_eq_decide.2 ?_
  unfold BitRange.width
  omega

theorem Ty.modulus_eq {ty : Ty} (h : ty.holdsLiterals = true) : ty.modulus = 2 ^ ty.width := by
  unfold modulus
  rw [capacity_eq_width ((holdsLiterals_iff ty).1 h).2]
  rfl

theorem Literal.bits_lt_two_pow {a : Literal} (ha : a.ty.holdsLiterals = true) :
    a.bits < 2 ^ a.width := by
  have h := a.bits_lt
  rwa [Ty.modulus_eq ha] at h

/-- The type of some bits of a literal. -/
theorem Ty.holdsLiterals_unsigned {ty : Ty} (h : ty.holdsLiterals = true) {n : Nat} (h1 : 1 ≤ n)
    (h2 : n ≤ ty.width) : (Ty.unsigned n).holdsLiterals = true :=
  (holdsLiterals_iff _).2 ⟨h1, Nat.le_trans h2 ((holdsLiterals_iff _).1 h).2⟩

section Splice

variable {a c : Literal} {r : BitRange}

theorem two_pow_msb (hr : r.lsb ≤ r.msb) : 2 ^ (r.msb + 1) = 2 ^ r.lsb * 2 ^ r.width := by
  rw [← Nat.pow_add]
  unfold BitRange.width
  congr 1
  omega

/-- What replaces the bits of the range and the old bits below it fit below the bits above. -/
theorem low_lt (hr : r.lsb ≤ r.msb) (hc : c.bits < 2 ^ r.width) (n : Nat) :
    2 ^ r.lsb * c.bits + n % 2 ^ r.lsb < 2 ^ (r.msb + 1) := by
  have hlow : n % 2 ^ r.lsb < 2 ^ r.lsb := Nat.mod_lt _ (Nat.two_pow_pos _)
  calc 2 ^ r.lsb * c.bits + n % 2 ^ r.lsb < 2 ^ r.lsb * c.bits + 2 ^ r.lsb := by omega
    _ = 2 ^ r.lsb * (c.bits + 1) := by rw [Nat.mul_add, Nat.mul_one]
    _ ≤ 2 ^ r.lsb * 2 ^ r.width := Nat.mul_le_mul_left _ hc
    _ = 2 ^ (r.msb + 1) := (two_pow_msb hr).symm

/-- **The bits of the range are the new ones, all others the old ones.** -/
theorem Literal.testBit_splice (hr : r.Within a.width) (ha : a.ty.holdsLiterals = true)
    (hc : c.bits < 2 ^ r.width) (k : Nat) :
    (a.splice r c).bits.testBit k =
      if r.lsb ≤ k ∧ k ≤ r.msb then c.bits.testBit (k - r.lsb) else a.bits.testBit k := by
  have hlow : a.bits % 2 ^ r.lsb < 2 ^ r.lsb := Nat.mod_lt _ (Nat.two_pow_pos _)
  have hm : r.msb < a.ty.width := hr.2
  unfold Literal.splice
  rw [bits_ofNat, Ty.modulus_eq ha, Nat.testBit_mod_two_pow,
    Nat.testBit_two_pow_mul_add _ (low_lt hr.1 hc _)]
  by_cases hk : k < a.ty.width
  · rw [decide_eq_true hk, Bool.true_and]
    split
    · rw [Nat.testBit_two_pow_mul_add _ hlow]
      split
      · rename_i hl
        rw [if_neg (fun h => Nat.not_lt_of_le h.1 hl), Nat.testBit_mod_two_pow, decide_eq_true hl,
          Bool.true_and]
      · rename_i hkm hl
        rw [if_pos ⟨Nat.le_of_not_lt hl, Nat.le_of_lt_succ hkm⟩]
    · rename_i hkm
      rw [if_neg (fun h => hkm (Nat.lt_succ_of_le h.2)), Nat.testBit_shiftRight,
        Nat.add_sub_cancel' (Nat.le_of_not_lt hkm)]
  · have hle : 2 ^ a.width ≤ 2 ^ k := Nat.pow_le_pow_right (by decide) (Nat.le_of_not_lt hk)
    have hlt : a.bits < 2 ^ k := Nat.lt_of_lt_of_le (bits_lt_two_pow ha) hle
    rw [decide_eq_false hk, Bool.false_and, if_neg (by omega), Nat.testBit_eq_false_of_lt hlt]

/-- **The pattern of the result**: the old one without the bits of the range, and the new bits in
    their place. -/
theorem Literal.bits_splice (hr : r.Within a.width) (ha : a.ty.holdsLiterals = true)
    (hc : c.bits < 2 ^ r.width) :
    (a.splice r c).bits = Nat.ldiff a.bits r.field ||| c.bits <<< r.lsb := by
  refine Nat.eq_of_testBit_eq fun k => ?_
  rw [testBit_splice hr ha hc, Nat.testBit_or, Nat.testBit_ldiff, BitRange.testBit_field hr.1,
    Nat.testBit_shiftLeft]
  by_cases hk : r.lsb ≤ k ∧ k ≤ r.msb
  · simp [hk]
  · rw [if_neg hk, decide_eq_false hk, Bool.not_false, Bool.and_true]
    -- the new bits reach no further than the range
    have hnone : (decide (k ≥ r.lsb) && c.bits.testBit (k - r.lsb)) = false := by
      by_cases hl : r.lsb ≤ k
      · have hm : r.msb < k := Nat.lt_of_not_le fun hm => hk ⟨hl, hm⟩
        have hle : r.width ≤ k - r.lsb := by
          have := hr.1
          unfold BitRange.width
          omega
        rw [Nat.testBit_eq_false_of_lt
          (Nat.lt_of_lt_of_le hc (Nat.pow_le_pow_right (by decide) hle)), Bool.and_false]
      · rw [decide_eq_false hl, Bool.false_and]
    rw [hnone, Bool.or_false]

end Splice

/-! ## 2. Slices -/

/-- The pattern of a slice that lies inside the literal. -/
theorem Literal.bits_slice {a : Literal} {msb lsb : Nat} (hl : lsb ≤ msb) (hm : msb < a.width)
    (ha : a.ty.holdsLiterals = true) :
    (a.slice msb lsb).bits = a.bits >>> lsb % 2 ^ (msb - lsb + 1) := by
  have hw : msb < a.ty.width := hm
  show a.bits >>> shiftDistance lsb % (Ty.unsigned (msb - lsb + 1)).modulus = _
  rw [shiftDistance_of_lt_width ha (Nat.lt_of_le_of_lt hl hm),
    Ty.modulus_eq (Ty.holdsLiterals_unsigned ha (by omega) (by omega))]
  rfl

theorem Literal.testBit_slice {a : Literal} {msb lsb : Nat} (hl : lsb ≤ msb) (hm : msb < a.width)
    (ha : a.ty.holdsLiterals = true) (k : Nat) :
    (a.slice msb lsb).bits.testBit k = (decide (k ≤ msb - lsb) && a.bits.testBit (lsb + k)) := by
  rw [bits_slice hl hm ha, Nat.testBit_mod_two_pow, Nat.testBit_shiftRight]
  exact congrArg (· && _) (decide_eq_decide.2 Nat.lt_succ_iff)

/-- A slice that lies inside the literal. -/
theorem fold_slice {a : Literal} {msb lsb : Nat} (hl : lsb ≤ msb) (hm : msb < a.width)
    (ha : a.ty.holdsLiterals = true) :
    fold (.slice msb lsb) [a] (.unsigned (msb - lsb + 1)) = some (a.slice msb lsb) := by
  have hw : msb < a.ty.width := hm
  unfold fold
  rw [if_pos (Ty.holdsLiterals_unsigned ha (by omega) (by omega))]
  simp only
  rw [if_pos ⟨hl, hm⟩]
  exact congrArg some (Literal.ofNat_bits (a.slice msb lsb))

/-- The bits of `a` above the range, if there are any. -/
def Literal.above (a : Literal) (r : BitRange) : List Literal :=
  if r.msb + 1 < a.width then [a.slice (a.width - 1) (r.msb + 1)] else []

/-- The bits of `a` below the range, if there are any. -/
def Literal.below (a : Literal) (r : BitRange) : List Literal :=
  if 0 < r.lsb then [a.slice (r.lsb - 1) 0] else []

section Slices

variable {a c : Literal} {r : BitRange}

/-- Above the range the result is what it was, -/
theorem Literal.above_splice (hr : r.Within a.width) (ha : a.ty.holdsLiterals = true)
    (hc : c.bits < 2 ^ r.width) : (a.splice r c).above r = a.above r := by
  unfold above
  rw [show (a.splice r c).width = a.width from rfl]
  split
  · refine congrArg (fun b => [b]) (ext_bits rfl (Nat.eq_of_testBit_eq fun k => ?_))
    rw [testBit_slice (a := a.splice r c) (by omega) (show a.width - 1 < a.width by omega) ha,
      testBit_slice (by omega) (by omega) ha, testBit_splice hr ha hc, if_neg (by omega)]
  · rfl

/-- in the range it is what has been put there, -/
theorem Literal.bits_slice_splice (hr : r.Within a.width) (ha : a.ty.holdsLiterals = true)
    (hc : c.bits < 2 ^ r.width) : ((a.splice r c).slice r.msb r.lsb).bits = c.bits := by
  have hl : r.lsb ≤ r.msb := hr.1
  refine Nat.eq_of_testBit_eq fun k => ?_
  rw [testBit_slice (a := a.splice r c) hl hr.2 ha, testBit_splice hr ha hc]
  by_cases hk : k ≤ r.msb - r.lsb
  · rw [decide_eq_true hk, Bool.true_and, if_pos (by omega), Nat.add_sub_cancel_left]
  · have hlt : c.bits < 2 ^ k := Nat.lt_of_lt_of_le hc (Nat.pow_le_pow_right (by decide) (by
      unfold BitRange.width
      omega))
    rw [decide_eq_false hk, Bool.false_and, Nat.testBit_eq_false_of_lt hlt]

/-- and below the range it is what it was. -/
theorem Literal.below_splice (hr : r.Within a.width) (ha : a.ty.holdsLiterals = true)
    (hc : c.bits < 2 ^ r.width) : (a.splice r c).below r = a.below r := by
  have hl : r.lsb ≤ r.msb := hr.1
  have hm : r.msb < a.width := hr.2
  unfold below
  split
  · refine congrArg (fun b => [b]) (ext_bits rfl (Nat.eq_of_testBit_eq fun k => ?_))
    rw [testBit_slice (a := a.splice r c) (by omega) (show r.lsb - 1 < a.width by omega) ha,
      testBit_slice (by omega) (by omega) ha, testBit_splice hr ha hc]
    by_cases hk : k ≤ r.lsb - 1 - 0
    · rw [if_neg (by omega)]
    · rw [decide_eq_false hk, Bool.false_and, Bool.false_and]
  · rfl

end Slices

/-! ## 3. The parts side by side -/

/-- The types of the parts of a literal of width `n`, where `ty` is the type of what goes into the
    range. -/
def BitRange.partTypes (r : BitRange) (n : Nat) (ty : Ty) : List Ty :=
  (if r.msb + 1 < n then [.unsigned (n - 1 - (r.msb + 1) + 1)] else []) ++
    ty :: (if 0 < r.lsb then [.unsigned (r.lsb - 1 - 0 + 1)] else [])

/-- The parts are together as wide as the whole. -/
theorem BitRange.widthSum_partTypes (r : BitRange) {n : Nat} {ty : Ty} (hr : r.Within n)
    (hw : ty.width = r.width) : widthSum (r.partTypes n ty) = n := by
  have hparts : (n - (r.msb + 1)) + r.width + r.lsb = n := BitRange.above_add_width_add_below hr
  have hbelow : widthSum (if 0 < r.lsb then [.unsigned (r.lsb - 1 - 0 + 1)] else []) = r.lsb := by
    split
    · show r.lsb - 1 - 0 + 1 + 0 = r.lsb
      omega
    · show 0 = r.lsb
      omega
  have hmiddle : ∀ tys, widthSum (ty :: tys) = r.width + widthSum tys :=
    fun tys => congrArg (· + widthSum tys) hw
  unfold partTypes
  split
  · show n - 1 - (r.msb + 1) + 1 + widthSum (ty :: _) = n
    rw [hmiddle, hbelow]
    omega
  · rw [List.nil_append, hmiddle, hbelow]
    omega

section Parts

variable {a c : Literal} {r : BitRange}

theorem map_ty_parts (a : Literal) (r : BitRange) (c : Literal) :
    (a.above r ++ c :: a.below r).map Literal.ty = r.partTypes a.width c.ty := by
  unfold Literal.above Literal.below BitRange.partTypes
  split <;> split <;> rfl

theorem totalWidth_parts (hr : r.Within a.width) (hc : c.width = r.width) :
    totalWidth (a.above r ++ c :: a.below r) = a.width := by
  rw [totalWidth_eq, map_ty_parts]
  exact r.widthSum_partTypes hr hc

theorem joinBits_parts (hr : r.Within a.width) (ha : a.ty.holdsLiterals = true)
    (hc : c.width = r.width) :
    joinBits (a.above r ++ c :: a.below r) =
      2 ^ (r.msb + 1) * (a.bits >>> (r.msb + 1)) + (2 ^ r.lsb * c.bits + a.bits % 2 ^ r.lsb) := by
  have hl : r.lsb ≤ r.msb := hr.1
  have hm : r.msb < a.width := hr.2
  -- the bits above come first, and where there are none they are zero
  have habove : (a.above r).foldl (fun n x => n <<< x.width + x.bits) 0 =
      a.bits >>> (r.msb + 1) := by
    have hshift : a.bits >>> (r.msb + 1) < 2 ^ (a.width - (r.msb + 1)) := by
      rw [Nat.shiftRight_eq_div_pow, Nat.div_lt_iff_lt_mul (Nat.two_pow_pos _), ← Nat.pow_add,
        Nat.sub_add_cancel hm]
      exact Literal.bits_lt_two_pow ha
    unfold Literal.above
    split
    · rw [List.foldl_cons, List.foldl_nil, Nat.zero_shiftLeft, Nat.zero_add]
      rw [Literal.bits_slice (by omega) (by omega) ha, Nat.mod_eq_of_lt]
      rwa [show a.width - 1 - (r.msb + 1) + 1 = a.width - (r.msb + 1) by omega]
    · rename_i hge
      rw [show a.width - (r.msb + 1) = 0 by omega] at hshift
      exact (Nat.lt_one_iff.1 hshift).symm
  have hbelow : ∀ n, (a.below r).foldl (fun n x => n <<< x.width + x.bits) n =
      2 ^ r.lsb * n + a.bits % 2 ^ r.lsb := by
    intro n
    unfold Literal.below
    split
    · rw [List.foldl_cons, List.foldl_nil]
      show n <<< (r.lsb - 1 - 0 + 1) + _ = _
      rw [Literal.bits_slice (by omega) (by omega) ha, Nat.shiftRight_zero,
        show r.lsb - 1 - 0 + 1 = r.lsb by omega, Nat.shiftLeft_eq, Nat.mul_comm]
    · rw [show r.lsb = 0 by omega, List.foldl_nil, Nat.pow_zero, Nat.mod_one]
      omega
  unfold joinBits
  rw [List.foldl_append, habove, List.foldl_cons, hbelow, hc, Nat.shiftLeft_eq, two_pow_msb hl,
    Nat.mul_add, Nat.mul_comm (a.bits >>> (r.msb + 1)), Nat.mul_assoc, Nat.add_assoc]

/-- **The parts side by side are the literal with its bits replaced**, once they are put under its
    type. -/
theorem fold_parts (hr : r.Within a.width) (ha : a.ty.holdsLiterals = true)
    (hc : c.width = r.width) :
    ∃ joined, fold .concat (a.above r ++ c :: a.below r) (.unsigned a.width) = some joined ∧
      joined.ty = .unsigned a.width ∧ fold .cast [joined] a.ty = some (a.splice r c) := by
  have htotal := totalWidth_parts hr hc
  have hh : (Ty.unsigned a.width).holdsLiterals = true := ha
  refine ⟨.ofNat (joinBits (a.above r ++ c :: a.below r)) (.unsigned a.width), ?_, rfl, ?_⟩
  · obtain ⟨x, xs, hx⟩ : ∃ x xs, a.above r ++ c :: a.below r = x :: xs := by
      cases a.above r with
      | nil => exact ⟨_, _, rfl⟩
      | cons x xs => exact ⟨_, _, rfl⟩
    rw [hx] at htotal ⊢
    unfold fold
    rw [if_pos hh]
    simp only
    rw [htotal, if_pos ⟨Nat.le_refl _, ((Ty.holdsLiterals_iff _).1 ha).2⟩]
  · rw [fold_cast _ ha, joinBits_parts hr ha hc]
    congr 1
    refine Literal.ext_bits (Literal.ty_resize _ _) ?_
    show (_ % (Ty.unsigned a.width).modulus) % a.ty.modulus = _ % a.ty.modulus
    rw [show (Ty.unsigned a.width).modulus = a.ty.modulus from rfl, Nat.mod_mod]

end Parts

end BitFlow
