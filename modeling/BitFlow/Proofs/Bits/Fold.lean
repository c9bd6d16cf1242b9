import BitFlow.Bits.Fold

/-!
# What folding gives

The type of a folded literal, and the operators that give their operand back: all bits of an
unsigned literal, a single unsigned part, a conversion to the literal's own type.

Main statements: `ty_of_fold` -- a literal folded at a type is of that type, apart from a choice;
`fold_slice_one` -- a slice of one bit is that bit.
-/

namespace BitFlow

/-! ## 1. Types of results -/

/-- The operator gives literals of the type `ty` when it is folded at that type. -/
def Opcode.Yields (op : Opcode) (ty : Ty) : Prop :=
  match op with
  | .compare _ => ty = .bit
  | .index => ty = .bit
  | .select => False
  | _ => True

theorem Binary.ty_fold {op : Binary} {a b c : Literal} {ty : Ty} (h : op.fold a b ty = some c) :
    c.ty = ty := by
  cases op with
  | div =>
    simp only [Binary.fold, divLiteral] at h
    split at h <;> split at h <;> cases h <;> rfl
  | rem =>
    simp only [Binary.fold, remLiteral] at h
    split at h <;> split at h <;> cases h <;> rfl
  | shl =>
    simp only [Binary.fold, shlLiteral] at h
    split at h <;> cases h <;> rfl
  | shr =>
    simp only [Binary.fold, shrLiteral] at h
    split at h
    · cases h
      rfl
    · split at h <;> cases h <;> rfl
  | _ =>
    cases h
    rfl

theorem ty_of_fold (op : Opcode) {args : List Literal} {ty : Ty} {c : Literal}
    (hop : op.Yields ty) (h : fold op args ty = some c) : c.ty = ty := by
  unfold fold at h
  split at h
  · split at h
    · rename_i u a
      cases h
      cases u <;> rfl
    · exact Binary.ty_fold h
    · cases h
      exact hop.symm
    · dsimp only at h
      split at h
      · cases h
        rfl
      · cases h
    · split at h
      · cases h
        exact hop.symm
      · cases h
    · split at h
      · cases h
        rfl
      · cases h
    · exact hop.elim
    · cases h
      exact Literal.ty_resize _ _
    · cases h
  · cases h

/-- Folding happens at types that hold literals. -/
theorem holdsLiterals_of_fold {op : Opcode} {args : List Literal} {ty : Ty} {c : Literal}
    (h : fold op args ty = some c) : ty.holdsLiterals = true := by
  cases hh : ty.holdsLiterals with
  | true => rfl
  | false =>
    rw [fold_of_not_holdsLiterals op args hh] at h
    cases h

/-! ## 2. Sums of widths -/

/-- The sum of the widths of some types. -/
def widthSum (tys : List Ty) : Nat := tys.foldr (fun ty n => ty.width + n) 0

theorem totalWidth_cons (a : Literal) (as : List Literal) :
    totalWidth (a :: as) = a.width + totalWidth as := rfl

theorem totalWidth_eq (cs : List Literal) : totalWidth cs = widthSum (cs.map Literal.ty) := by
  induction cs with
  | nil => rfl
  | cons c cs ih =>
    rw [totalWidth_cons, ih]
    rfl

/-! ## 3. Operators that give their operand back -/

/-- A literal at its own type is itself. -/
theorem Literal.resize_self (a : Literal) : a.resize a.ty = a := by
  unfold resize
  split
  · refine ext_bits rfl ?_
    show ((a.toInt % (a.ty.modulus : Int)).toNat) % a.ty.modulus = a.bits
    have hlt := a.bits_lt
    have hmod : a.toInt % (a.ty.modulus : Int) = a.bits := by
      unfold toInt
      split
      · exact Int.emod_eq_of_lt (Int.natCast_nonneg _) (by omega)
      · rw [Int.sub_emod_right]
        exact Int.emod_eq_of_lt (Int.natCast_nonneg _) (by omega)
    rw [hmod, Int.toNat_natCast, Nat.mod_eq_of_lt hlt]
  · exact ofNat_bits a

theorem fold_cast_self {a : Literal} (hh : a.ty.holdsLiterals = true) :
    fold .cast [a] a.ty = some a := by
  rw [fold_cast a hh, a.resize_self]

/-- All bits of an unsigned literal are the literal itself. -/
theorem fold_slice_all {a : Literal} {msb lsb : Nat} (ht : a.ty = .unsigned (msb - lsb + 1))
    (hl : lsb ≤ msb) (hm : msb < a.ty.width) (hh : a.ty.holdsLiterals = true) :
    fold (.slice msb lsb) [a] (.unsigned (msb - lsb + 1)) = some a := by
  have hlsb : lsb = 0 := by
    have hw : a.ty.width = msb - lsb + 1 := congrArg Ty.width ht
    omega
  unfold fold
  rw [← ht, if_pos hh]
  simp only
  rw [if_pos ⟨hl, hm⟩]
  congr 1
  refine Literal.ext_bits rfl ?_
  show (a.bits >>> shiftDistance lsb % (Ty.unsigned (msb - lsb + 1)).modulus) % a.ty.modulus = a.bits
  rw [← ht, hlsb, show shiftDistance 0 = 0 from rfl, Nat.shiftRight_zero, Nat.mod_mod, Nat.mod_eq_of_lt a.bits_lt]

/-- A bit of a literal, as a slice and as a truth value. -/
theorem Literal.slice_one (a : Literal) {k : Nat} (hk : k < a.width) :
    (a.slice k k).reinterpret .bit = .ofBool (a.bit k) := by
  refine ext_bits rfl ?_
  rw [bits_ofBool]
  show (a.bits >>> shiftDistance k % (Ty.unsigned (k - k + 1)).modulus) % Ty.bit.modulus = _
  have h2 : (Ty.unsigned (k - k + 1)).modulus = 2 := by
    rw [Nat.sub_self]
    rfl
  rw [h2, show Ty.bit.modulus = 2 from rfl, Nat.mod_mod]
  unfold bit
  rw [decide_eq_true hk, Bool.true_and, Nat.testBit_eq_decide_div_mod_eq,
    Nat.shiftRight_eq_div_pow]
  rcases Nat.mod_two_eq_zero_or_one (a.bits / 2 ^ shiftDistance k) with e | e <;> rw [e] <;> rfl

/-- A slice of one bit is that bit. -/
theorem fold_slice_one {a k : Literal} (hk : k.bits < a.width) :
    fold (.slice k.bits k.bits) [a] .bit = fold .index [a, k] .bit := by
  unfold fold
  rw [if_pos (by decide), if_pos (by decide)]
  simp only
  rw [if_pos ⟨Nat.le_refl _, hk⟩, if_pos hk, a.slice_one hk]

/-- A single part of its own type is all there is. -/
theorem fold_concat_one {a : Literal} (hh : a.ty.holdsLiterals = true) :
    fold .concat [a] a.ty = some a := by
  have hw : totalWidth [a] = a.ty.width := Nat.add_zero _
  have hle := ((Ty.holdsLiterals_iff _).1 hh).2
  unfold fold
  rw [if_pos hh]
  simp only
  rw [hw, if_pos ⟨Nat.le_refl _, hle⟩]
  congr 1
  refine Literal.ext_bits rfl ?_
  show (0 <<< a.width + a.bits) % a.ty.modulus = a.bits
  rw [Nat.zero_shiftLeft, Nat.zero_add, Nat.mod_eq_of_lt a.bits_lt]

end BitFlow
