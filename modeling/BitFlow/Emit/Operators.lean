import BitFlow.Graph.Edit
import BitFlow.Store.Focus

/-!
# Emitting instructions

Instructions are put into the graph at a cursor, which moves on past each of them. An operator
whose operands are all literals is folded and leaves no instruction; a conversion to the type that
an operand has already, and a slice of all its bits, give the operand back.

The result types: a unary or binary operator has the type of its first operand, a comparison is a
truth value, a concatenation and a slice are unsigned.
-/

namespace BitFlow

/-! ## 1. The cursor -/

/-- Where the next instruction goes: before the one at `position`, or at the end of the block. -/
structure Cursor where
  block : BlockId
  position : Option Nat
  deriving DecidableEq, Repr, Inhabited

/-- The cursor past an instruction that was just put in. -/
def Cursor.advance (c : Cursor) : Cursor := { c with position := c.position.map (· + 1) }

/-- A graph with a cursor in it. -/
structure Pointed where
  graph : Graph
  cursor : Cursor

/-- A computation that puts instructions at the cursor. -/
abbrev Emit := EStateM Fault Pointed

namespace Emit

/-- A change of the graph alone. -/
def onGraph {α : Type} (x : Edit α) : Emit α :=
  focus Pointed.graph (fun g s => { s with graph := g }) x

instance : MonadLift Edit Emit := ⟨onGraph⟩

/-- An instruction at the cursor. -/
def instr (ty : Ty) (op : Opcode) (operands : List Operand) (portUse : Option PortUse)
    (origin : Origin) : Emit ValueId := do
  let c := (← get).cursor
  let v ← Edit.insertInstr c.block c.position ty origin ⟨op, operands, portUse⟩
  modify fun s => { s with cursor := s.cursor.advance }
  pure v

/-- The literal that an operator computes from its operands, if all of them are literals. -/
def folded? (op : Opcode) (operands : List Operand) (ty : Ty) : Option Literal := do
  fold op (← operands.mapM Operand.literal?) ty

/-- An operator applied: folded where possible, else an instruction. -/
def apply (ty : Ty) (op : Opcode) (operands : List Operand) : Emit Operand := do
  match folded? op operands ty with
  | some c => pure (.lit c)
  | none => return .value (← instr ty op operands none .expression)

/-! ## 2. Operators -/

/-- A unary operator; the result has the type of the operand. -/
def unary (op : Opcode) (arg : Operand) (site : String) : Emit Operand := do
  match op with
  | .unary _ =>
      let ty ← Edit.operandType arg
      apply ty op [arg]
  | _ => throw (.violated (.notUnary op site))

/-- A binary operator; the result has the type of the first operand. The widths agree, except that
    a shift amount may have any width. -/
def binary (op : Opcode) (lhs rhs : Operand) (site : String) : Emit Operand := do
  let lt ← Edit.operandType lhs
  let rt ← Edit.operandType rhs
  match op with
  | .binary o =>
      if o.isShift ∨ lt.width = rt.width then apply lt op [lhs, rhs]
      else throw (.typeMismatch (.type lt) (some rt) site)
  | _ => throw (.violated (.notBinary op site))

/-- A comparison of two operands of one width. -/
def compare (op : Opcode) (lhs rhs : Operand) (site : String) : Emit Operand := do
  match op with
  | .compare _ =>
      let lt ← Edit.operandType lhs
      let rt ← Edit.operandType rhs
      if lt.width = rt.width then apply .bit op [lhs, rhs]
      else throw (.typeMismatch (.type lt) (some rt) site)
  | _ => throw (.violated (.notComparison op site))

/-- The sum of two widths, cut at the largest word. -/
def addWidth (a b : Nat) : Nat := min (a + b) wordMax

/-- The parts side by side, the first on top; a single unsigned part is the answer itself. -/
def concat (parts : List Operand) (site : String) : Emit Operand := do
  let tys ← parts.mapM fun p => Edit.operandType p
  let ty := Ty.unsigned (tys.foldl (fun w t => addWidth w t.width) 0)
  match parts, tys with
  | [], _ => throw (.typeMismatch .somePart none site)
  | [part], [t] => if t.signed then apply ty .concat [part] else pure part
  | _, _ => apply ty .concat parts

/-- The bits from `lsb` up to `msb`; all bits of an unsigned operand are the operand itself. -/
def slice (base : Operand) (msb lsb : Nat) (site : String) : Emit Operand := do
  let bt ← Edit.operandType base
  if lsb ≤ msb ∧ msb < bt.width then
    let ty := Ty.unsigned (msb - lsb + 1)
    if ty = bt then pure base else apply ty (.slice msb lsb) [base]
  else throw (.outOfRange msb lsb bt.width site)

/-- One bit; at a literal position it is a slice. -/
def index (base pos : Operand) (site : String) : Emit Operand := do
  match pos.literal? with
  | some k =>
      let k := min k.bits wordMax
      slice base k k site
  | none => apply .bit .index [base, pos]

/-- `yes` if `cond` is true, else `no`; both of one type. A literal condition decides at once. -/
def select (cond yes no : Operand) (site : String) : Emit Operand := do
  let ct ← Edit.operandType cond
  if !ct.isBit then
    throw (.typeMismatch (.type .bit) (some ct) site)
  let yt ← Edit.operandType yes
  let nt ← Edit.operandType no
  if yt ≠ nt then
    throw (.typeMismatch (.type yt) (some nt) site)
  match cond.literal? with
  | some c => pure (if c.isTrue then yes else no)
  | none => return .value (← instr yt .select [cond, yes, no] none .expression)

/-- An operand under another type. -/
def cast (arg : Operand) (ty : Ty) (site : String) : Emit Operand := do
  if ty.width = 0 then
    throw (.typeMismatch .nonEmptyType (some ty) site)
  if (← Edit.operandType arg) = ty then pure arg else apply ty .cast [arg]

/-! ## 3. Ports -/

/-- A datum read at a port. -/
def portRead (p : PortId) (ty : Ty) : Emit Operand :=
  return .value (← instr ty .assign [] (some ⟨p, .read⟩) (.port p))

/-- A datum written at a port. -/
def portWrite (p : PortId) (datum : Operand) : Emit ValueId := do
  let ty ← Edit.operandType datum
  instr ty .assign [datum] (some ⟨p, .write⟩) (.port p)

/-! ## 4. Bringing operands together -/

/-- Two operands at one type. A literal takes the type of the other operand, the second one first;
    of two values of one width the second is converted. -/
def coerce (lhs rhs : Operand) (site : String) : Emit (Operand × Operand) := do
  let lt ← Edit.operandType lhs
  let rt ← Edit.operandType rhs
  if lt = rt then pure (lhs, rhs)
  else
    match lhs.literal?, rhs.literal? with
    | _, some c => pure (lhs, .lit (c.resize lt))
    | some c, none => pure (.lit (c.resize rt), rhs)
    | none, none =>
        if lt.width = rt.width then return (lhs, ← cast rhs lt site)
        else throw (.typeMismatch (.type lt) (some rt) site)

/-- An operand at the type of the place where it is stored. -/
def coerceTo (o : Operand) (ty : Ty) (site : String) : Emit Operand := do
  let found ← Edit.operandType o
  if found = ty then pure o
  else
    match o.literal? with
    | some c => pure (.lit (c.resize ty))
    | none =>
        if found.width = ty.width then cast o ty site
        else throw (.typeMismatch (.type ty) (some found) site)

/-- An operand as a truth value: whether it differs from zero. -/
def condition (o : Operand) (site : String) : Emit Operand := do
  let ty ← Edit.operandType o
  if ty.isBit then pure o
  else compare (.compare .ne) o (.lit (.zero ty)) site

end Emit

end BitFlow
