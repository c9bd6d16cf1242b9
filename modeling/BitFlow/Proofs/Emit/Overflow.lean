import BitFlow.Bits.Overflow
import BitFlow.Proofs.Emit.Applied

/-!
# Overflow in operators

An operator computes with literals where it is folded, and a conversion where the operand is a
literal. These tests tell whether the arithmetic overflows there; operators without a test never do.
What an operand is converted to depends on the graph, since a literal takes the type of the other
operand.

Main statements: `Emit.unheld_of_binaryOverflows` and its companions -- where an operator overflows
one of its operands is a literal that the storage does not hold.
-/

namespace BitFlow

namespace Emit

/-! ## 1. Tests -/

/-- A binary operator overflows. -/
def binaryOverflows (op : Binary) : Operand → Operand → Bool
  | .lit a, .lit b =>
      (op.isShift || a.width == b.width) && foldOverflows (.binary op) [a, b] a.ty
  | _, _ => false

/-- A comparison overflows. -/
def comparisonOverflows (op : Relation) : Operand → Operand → Bool
  | .lit a, .lit b => a.width == b.width && foldOverflows (.compare op) [a, b] .bit
  | _, _ => false

/-- A slice overflows; one of all bits is not computed. -/
def sliceOverflows (base : Operand) (msb lsb : Nat) : Bool :=
  match base with
  | .lit a =>
      decide (.unsigned (msb - lsb + 1) ≠ a.ty) &&
        foldOverflows (.slice msb lsb) [a] (.unsigned (msb - lsb + 1))
  | _ => false

/-- The look-up of a bit overflows; at a literal position it is a slice. -/
def indexOverflows (base pos : Operand) : Bool :=
  match pos with
  | .lit k => sliceOverflows base (min k.bits wordMax) (min k.bits wordMax)
  | _ => false

/-- A conversion overflows; one to the same type is not computed. -/
def castOverflows (arg : Operand) (ty : Ty) : Bool :=
  match arg with
  | .lit a => decide (a.ty ≠ ty) && foldOverflows .cast [a] ty
  | _ => false

/-- Bringing a literal to the type of its place overflows. -/
def coerceToOverflows (o : Operand) (ty : Ty) : Bool :=
  match o with
  | .lit c => decide (c.ty ≠ ty) && c.resizeOverflows
  | _ => false

/-- Bringing two operands to one type overflows: a literal takes the type of the other operand, the
    second one first. -/
def coerceOverflows (g : Graph) (lhs rhs : Operand) : Bool :=
  match lhs, rhs with
  | lhs, .lit c => (g.typeOf? lhs).any (coerceToOverflows (.lit c))
  | .lit c, rhs => (g.typeOf? rhs).any (coerceToOverflows (.lit c))
  | _, _ => false

/-- The test whether an operand differs from zero overflows. -/
def conditionOverflows (o : Operand) : Bool :=
  match o with
  | .lit c => !c.ty.isBit && comparisonOverflows .ne o (.lit (.zero c.ty))
  | _ => false

/-! ## 2. Literals that the storage holds -/

/-- One of the operands is a literal that the storage does not hold. -/
def Unheld (os : List Operand) : Prop := ∃ c, .lit c ∈ os ∧ c.ty.holdsLiterals = false

variable {a b o : Operand} {ty : Ty}

theorem Unheld.of_literals {cs : List Literal} (h : ∃ c ∈ cs, c.ty.holdsLiterals = false) :
    Unheld (cs.map .lit) := by
  obtain ⟨c, hc, hn⟩ := h
  exact ⟨c, List.mem_map_of_mem hc, hn⟩

theorem unheld_of_binaryOverflows {op : Binary} (h : binaryOverflows op a b = true) :
    Unheld [a, b] := by
  unfold binaryOverflows at h
  split at h
  · exact .of_literals (exists_of_foldOverflows (Bool.and_eq_true_iff.1 h).2)
  · cases h

theorem unheld_of_comparisonOverflows {op : Relation} (h : comparisonOverflows op a b = true) :
    Unheld [a, b] := by
  unfold comparisonOverflows at h
  split at h
  · exact .of_literals (exists_of_foldOverflows (Bool.and_eq_true_iff.1 h).2)
  · cases h

theorem unheld_of_sliceOverflows {msb lsb : Nat} (h : sliceOverflows a msb lsb = true) :
    Unheld [a] := by
  unfold sliceOverflows at h
  split at h
  · exact .of_literals (exists_of_foldOverflows (Bool.and_eq_true_iff.1 h).2)
  · cases h

theorem unheld_of_indexOverflows (h : indexOverflows a b = true) : Unheld [a, b] := by
  unfold indexOverflows at h
  split at h
  · obtain ⟨c, hc, hn⟩ := unheld_of_sliceOverflows h
    exact ⟨c, List.mem_cons.2 (.inl (List.mem_singleton.1 hc)), hn⟩
  · cases h

theorem unheld_of_castOverflows (h : castOverflows a ty = true) : Unheld [a] := by
  unfold castOverflows at h
  split at h
  · exact .of_literals (exists_of_foldOverflows (Bool.and_eq_true_iff.1 h).2)
  · cases h

theorem unheld_of_coerceToOverflows (h : coerceToOverflows a ty = true) : Unheld [a] := by
  unfold coerceToOverflows at h
  split at h
  · exact ⟨_, List.mem_cons_self,
      Literal.not_held_of_resizeOverflows (Bool.and_eq_true_iff.1 h).2⟩
  · cases h

theorem unheld_of_coerceOverflows {g : Graph} (h : coerceOverflows g a b = true) :
    Unheld [a, b] := by
  have hside : ∀ {c : Literal} {ty? : Option Ty},
      ty?.any (coerceToOverflows (.lit c)) = true → c.ty.holdsLiterals = false := by
    intro c ty? hany
    cases ty? with
    | none => cases hany
    | some ty =>
      have hunheld : Unheld [.lit c] := unheld_of_coerceToOverflows hany
      obtain ⟨d, hd, hn⟩ := hunheld
      cases List.mem_singleton.1 hd
      exact hn
  unfold coerceOverflows at h
  split at h
  · exact ⟨_, List.mem_cons_of_mem _ List.mem_cons_self, hside h⟩
  · exact ⟨_, List.mem_cons_self, hside h⟩
  · cases h

theorem unheld_of_conditionOverflows (h : conditionOverflows o = true) : Unheld [o] := by
  unfold conditionOverflows at h
  split at h
  · rename_i c
    obtain ⟨d, hd, hn⟩ := unheld_of_comparisonOverflows (Bool.and_eq_true_iff.1 h).2
    refine ⟨c, List.mem_cons_self, ?_⟩
    -- the zero is of the type of the operand
    rcases List.mem_cons.1 hd with hd | hd
    · cases hd
      exact hn
    · cases List.mem_singleton.1 hd
      exact hn
  · cases h

end Emit

end BitFlow
