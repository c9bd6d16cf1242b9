import BitFlow.Proofs.Aftermath
import BitFlow.Proofs.Emit.Applied

/-!
# Faults leave nothing behind

An operation on the graph checks everything that it needs before it changes anything, and an
operator puts in one instruction at most, as its last step. So where one of them fails, graph and
cursor are as they were -- whatever the graph, and wherever the cursor stands.

Main statements: `Edit.atomic_addEdge`, `Edit.atomic_insertInstr`, and one statement for each
operator, from `Emit.single_unary` to `Emit.single_condition`.
-/

namespace BitFlow

/-! ## 1. Operations on the graph -/

namespace Edit

theorem looks_block (b : BlockId) : Looks (block b) := by
  refine .look fun g => ?_
  split
  · exact .pure _
  · exact .throw _

theorem looks_value (v : ValueId) : Looks (value v) := by
  refine .look fun g => ?_
  split
  · exact .pure _
  · exact .throw _

theorem looks_operandType (o : Operand) : Looks (operandType o) := by
  cases o with
  | value v => exact .bind (looks_value v) fun _ => .pure _
  | lit c => exact .pure _
  | undef ty => exact .pure _

/-- **Both ends of an edge and the seal of its target are checked before the edge is made.** -/
theorem atomic_addEdge (source : BlockId) (cond : Option Operand) (target : BlockId) :
    Atomic (addEdge source cond target) := by
  refine .bind (looks_block source) fun x => ?_
  split
  · exact .of_looks (.pure _)
  refine .bind (looks_block target) fun there => ?_
  split
  · exact .throw_bind _ _
  · exact .of_total fun _ => trivial

/-- **The place of an instruction is checked before the instruction is made.** -/
theorem atomic_insertInstr (b : BlockId) (position : Option Nat) (ty : Ty) (origin : Origin)
    (i : Instr) : Atomic (insertInstr b position ty origin i) := by
  refine .bind (looks_block b) fun y => ?_
  dsimp only
  split
  · exact .throw_bind _ _
  · exact .of_total fun _ => trivial

end Edit

/-! ## 2. Operators -/

namespace Emit

variable {α : Type}

theorem looks_edit {x : Edit α} (hx : Looks x) : Looks (liftM x : Emit α) :=
  .focus (fun _ => rfl) hx

theorem looks_operandType (o : Operand) : Looks (liftM (Edit.operandType o) : Emit Ty) :=
  looks_edit (Edit.looks_operandType o)

theorem looks_operandTypes (os : List Operand) :
    Looks (os.mapM fun o => (liftM (Edit.operandType o) : Emit Ty)) := by
  induction os with
  | nil => exact .pure _
  | cons o os ih =>
    rw [List.mapM_cons]
    exact .bind (looks_operandType o) fun _ => .bind ih fun _ => .pure _

/-- **The computation puts in one instruction at most**, and a fault leaves graph and cursor as they
    were. -/
def Single (x : Emit α) : Prop :=
  ∀ p, Leaves x p (fun _ q => q = p) fun _ q => q = p ∨ ∃ ty origin i v, Put p ty origin i v q

namespace Single

variable {β : Type} {x : Emit α} {f : α → Emit β}

theorem atomic (hx : Single x) : Atomic x := fun p =>
  (hx p).mono (fun _ _ h => h) fun _ _ _ => trivial

theorem of_looks (hx : Looks x) : Single x := fun p =>
  (hx p).mono (fun _ _ h => h) fun _ _ h => .inl h

theorem throw (e : Fault) : Single (throw e : Emit α) := .of_looks (.throw e)

/-- What would come after a fault does not. -/
theorem throw_bind (e : Fault) (f : α → Emit β) :
    Single ((MonadExcept.throw e : Emit α) >>= f) := fun _ => rfl

/-- Checks come first. -/
theorem bind (hx : Looks x) (hf : ∀ a, Single (f a)) : Single (x >>= f) := fun p =>
  (hx p).seq fun a q hq => by
    subst hq
    exact hf a q

/-- The answer is made from that of the step that puts in the instruction. -/
theorem map (hx : Single x) (k : α → β) : Single (x >>= fun a => pure (k a)) := fun p =>
  (hx p).seq fun _ _ hq => hq

end Single

/-- **The cursor moves on only past an instruction that was put in.** -/
theorem atomic_instr (ty : Ty) (op : Opcode) (os : List Operand) (portUse : Option PortUse)
    (origin : Origin) : Atomic (instr ty op os portUse origin) := by
  refine .look fun p => .andThen (.focus (fun _ => rfl) ?_) fun _ _ => trivial
  exact Edit.atomic_insertInstr _ _ _ _ _

theorem single_instr (ty : Ty) (op : Opcode) (os : List Operand) (portUse : Option PortUse)
    (origin : Origin) : Single (instr ty op os portUse origin) := fun _ =>
  (atomic_instr ty op os portUse origin).leaves
    (ends_instr.mono fun _ _ hput => .inr ⟨_, _, _, _, hput⟩)

theorem single_apply (ty : Ty) (op : Opcode) (os : List Operand) : Single (apply ty op os) := by
  unfold apply
  split
  · exact .of_looks (.pure _)
  · exact .map (single_instr _ _ _ _ _) _

theorem single_unary (op : Opcode) (a : Operand) (site : String) : Single (unary op a site) := by
  unfold unary
  split
  · exact .bind (looks_operandType a) fun _ => single_apply _ _ _
  · exact .throw _

theorem single_binary (op : Opcode) (a b : Operand) (site : String) :
    Single (binary op a b site) := by
  refine .bind (looks_operandType a) fun _ => .bind (looks_operandType b) fun _ => ?_
  split
  · split
    · exact single_apply _ _ _
    · exact .throw _
  · exact .throw _

theorem single_compare (op : Opcode) (a b : Operand) (site : String) :
    Single (compare op a b site) := by
  unfold compare
  split
  · refine .bind (looks_operandType a) fun _ => .bind (looks_operandType b) fun _ => ?_
    split
    · exact single_apply _ _ _
    · exact .throw _
  · exact .throw _

theorem single_concat (os : List Operand) (site : String) : Single (concat os site) := by
  refine .bind (looks_operandTypes os) fun tys => ?_
  dsimp only
  split
  · exact .throw _
  · split
    · exact single_apply _ _ _
    · exact .of_looks (.pure _)
  · exact single_apply _ _ _

theorem single_slice (a : Operand) (msb lsb : Nat) (site : String) :
    Single (slice a msb lsb site) := by
  refine .bind (looks_operandType a) fun ty => ?_
  split
  · dsimp only
    split
    · exact .of_looks (.pure _)
    · exact single_apply _ _ _
  · exact .throw _

theorem single_index (a k : Operand) (site : String) : Single (index a k site) := by
  unfold index
  split
  · exact single_slice _ _ _ _
  · exact single_apply _ _ _

theorem single_select (c a b : Operand) (site : String) : Single (select c a b site) := by
  refine .bind (looks_operandType c) fun ct => ?_
  dsimp only
  split
  · exact .throw_bind _ _
  refine .bind (looks_operandType a) fun ta => .bind (looks_operandType b) fun tb => ?_
  split
  · exact .throw_bind _ _
  split
  · exact .of_looks (.pure _)
  · exact .map (single_instr _ _ _ _ _) _

theorem single_cast (a : Operand) (ty : Ty) (site : String) : Single (cast a ty site) := by
  unfold cast
  split
  · exact .throw _
  refine .bind (looks_operandType a) fun _ => ?_
  split
  · exact .of_looks (.pure _)
  · exact single_apply _ _ _

theorem single_portRead (p : PortId) (ty : Ty) : Single (portRead p ty) :=
  .map (single_instr _ _ _ _ _) _

theorem single_portWrite (p : PortId) (o : Operand) : Single (portWrite p o) :=
  .bind (looks_operandType o) fun _ => single_instr _ _ _ _ _

theorem single_coerce (a b : Operand) (site : String) : Single (coerce a b site) := by
  refine .bind (looks_operandType a) fun _ => .bind (looks_operandType b) fun _ => ?_
  split
  · exact .of_looks (.pure _)
  · split
    · exact .of_looks (.pure _)
    · exact .of_looks (.pure _)
    · split
      · exact .map (single_cast _ _ _) _
      · exact .throw _

theorem single_coerceTo (o : Operand) (ty : Ty) (site : String) : Single (coerceTo o ty site) := by
  refine .bind (looks_operandType o) fun _ => ?_
  split
  · exact .of_looks (.pure _)
  · split
    · exact .of_looks (.pure _)
    · split
      · exact single_cast _ _ _
      · exact .throw _

theorem single_condition (o : Operand) (site : String) : Single (condition o site) := by
  refine .bind (looks_operandType o) fun _ => ?_
  split
  · exact .of_looks (.pure _)
  · exact single_compare _ _ _ _

end Emit

end BitFlow
