import BitFlow.Bits.Fold

/-!
# Overflow

The pattern of a literal lies in a word of `storageBits` bits. The arithmetic on that word is made
to wrap or to be refused, all but the shifts by the length of the word or more. A program that is
built to check its arithmetic stops at such a shift. One that is not built so shifts by the distance
gone round (`shiftDistance`), which is what `fold` and the conversions say.

The tests of this file tell where the two part. Only literals that the storage does not hold are
shifted so far: those of no bits, and those wider than the word.

Main statement: `exists_of_foldOverflows`.
-/

namespace BitFlow

/-! ## 1. Tests -/

namespace Literal

/-- Reading the pattern as two's complement overflows: the sign of a literal of no bits is as far
    from the end of the word as the word is long. -/
def signOverflows (a : Literal) : Bool := a.width == 0

/-- Conversion to another type overflows, and so does writing the literal as text: both read a
    signed literal as two's complement. -/
def resizeOverflows (a : Literal) : Bool := a.ty.signed && a.signOverflows

/-- A shift by a distance below the width of the literal overflows. -/
def shiftOverflows (a : Literal) (distance : Nat) : Bool :=
  decide (distance < a.width) && decide (storageBits ≤ distance)

end Literal

/-- A binary operator at type `ty` overflows. -/
def Binary.overflows (op : Binary) (a b : Literal) (ty : Ty) : Bool :=
  match op with
  | .div | .rem => ty.signed && (a.signOverflows || b.signOverflows)
  | .shl => a.shiftOverflows b.bits
  | .shr => if a.ty.signed then a.signOverflows else a.shiftOverflows b.bits
  | _ => false

/-- **The operator overflows when it is folded** over literal operands at type `ty`. A comparison
    looks the order up, whatever it asks for. -/
def foldOverflows (op : Opcode) (args : List Literal) (ty : Ty) : Bool :=
  ty.holdsLiterals &&
    match op, args with
    | .binary o, [a, b] => o.overflows a b ty
    | .compare _, [a, b] => a.ty.signed && b.ty.signed && (a.signOverflows || b.signOverflows)
    | .index, [base, pos] => base.shiftOverflows pos.bits
    | .slice msb lsb, [base] =>
        decide (lsb ≤ msb) && decide (msb < base.width) && base.shiftOverflows lsb
    | .cast, [a] => a.resizeOverflows
    | _, _ => false

/-! ## 2. Literals that the storage holds -/

namespace Literal

variable {a b : Literal}

theorem not_held_of_signOverflows (h : a.signOverflows = true) : a.ty.holdsLiterals = false := by
  unfold signOverflows at h
  rw [beq_iff_eq] at h
  rw [Bool.eq_false_iff]
  intro hh
  have := ((Ty.holdsLiterals_iff _).1 hh).1
  unfold width at h
  omega

theorem not_held_of_resizeOverflows (h : a.resizeOverflows = true) :
    a.ty.holdsLiterals = false :=
  not_held_of_signOverflows (Bool.and_eq_true_iff.1 h).2

theorem not_held_of_shiftOverflows {distance : Nat} (h : a.shiftOverflows distance = true) :
    a.ty.holdsLiterals = false := by
  unfold shiftOverflows at h
  rw [Bool.and_eq_true, decide_eq_true_iff, decide_eq_true_iff] at h
  rw [Bool.eq_false_iff]
  intro hh
  have := ((Ty.holdsLiterals_iff _).1 hh).2
  unfold width at h
  omega

theorem not_held_of_signOverflows_or (h : (a.signOverflows || b.signOverflows) = true) :
    ∃ c ∈ [a, b], c.ty.holdsLiterals = false := by
  rcases Bool.or_eq_true_iff.1 h with h | h
  · exact ⟨a, List.mem_cons_self, not_held_of_signOverflows h⟩
  · exact ⟨b, List.mem_cons_of_mem _ List.mem_cons_self, not_held_of_signOverflows h⟩

end Literal

theorem Binary.exists_of_overflows {op : Binary} {a b : Literal} {ty : Ty}
    (h : op.overflows a b ty = true) : ∃ c ∈ [a, b], c.ty.holdsLiterals = false := by
  have hleft : a.ty.holdsLiterals = false → ∃ c ∈ [a, b], c.ty.holdsLiterals = false :=
    fun ha => ⟨a, List.mem_cons_self, ha⟩
  cases op with
  | div => exact Literal.not_held_of_signOverflows_or (Bool.and_eq_true_iff.1 h).2
  | rem => exact Literal.not_held_of_signOverflows_or (Bool.and_eq_true_iff.1 h).2
  | shl => exact hleft (Literal.not_held_of_shiftOverflows h)
  | shr =>
    unfold overflows at h
    dsimp only at h
    split at h
    · exact hleft (Literal.not_held_of_signOverflows h)
    · exact hleft (Literal.not_held_of_shiftOverflows h)
  | _ => cases h

/-- **Only literals that the storage does not hold overflow.** -/
theorem exists_of_foldOverflows {op : Opcode} {args : List Literal} {ty : Ty}
    (h : foldOverflows op args ty = true) : ∃ c ∈ args, c.ty.holdsLiterals = false := by
  have htest := (Bool.and_eq_true_iff.1 h).2
  split at htest
  · exact Binary.exists_of_overflows htest
  · exact Literal.not_held_of_signOverflows_or (Bool.and_eq_true_iff.1 htest).2
  · exact ⟨_, List.mem_cons_self, Literal.not_held_of_shiftOverflows htest⟩
  · exact ⟨_, List.mem_cons_self,
      Literal.not_held_of_shiftOverflows (Bool.and_eq_true_iff.1 htest).2⟩
  · exact ⟨_, List.mem_cons_self, Literal.not_held_of_resizeOverflows htest⟩
  · cases htest

end BitFlow
