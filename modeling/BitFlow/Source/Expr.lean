import BitFlow.Bits.Fold

/-!
# Expressions

Expressions of the source language: literals, variables, and the closed set of operators. In a
concatenation the first part stands in the most significant bits.

`Expr.evalWithin` evaluates the expressions that read no variable. Main statement:
`Expr.evalWithin_var`, `Expr.evalWithin_lit` and the other equations of the evaluation.
-/

namespace BitFlow

/-! ## 1. Names of variables and ports -/

/-- A variable, by the number under which it was declared. -/
structure VarId where
  index : Nat
  deriving DecidableEq, Repr, Inhabited

/-- A port, by the number under which it was declared. -/
structure PortId where
  index : Nat
  deriving DecidableEq, Repr, Inhabited

/-- The written form of a variable's number. -/
def VarId.text (x : VarId) : String := "var" ++ toString x.index

/-- The written form of a port's number. -/
def PortId.text (p : PortId) : String := "port" ++ toString p.index

/-! ## 2. Expressions -/

/-- An expression of the source language. -/
inductive Expr where
  | lit (value : Literal)
  | var (x : VarId)
  | unary (op : Unary) (arg : Expr)
  | binary (op : Binary) (lhs rhs : Expr)
  | compare (op : Relation) (lhs rhs : Expr)
  /-- The parts side by side, the first on top. -/
  | concat (parts : List Expr)
  /-- One bit of `base`. -/
  | bit (base pos : Expr)
  /-- The bits from `lsb` up to `msb` of `base`. -/
  | range (base msb lsb : Expr)
  | ternary (cond yes no : Expr)
  /-- `arg` under another type. -/
  | cast (arg : Expr) (ty : Ty)

instance : Inhabited Expr := ⟨.lit default⟩

namespace Expr

/-- The literal that an expression is, if it is one. -/
def literal? : Expr → Option Literal
  | .lit c => some c
  | _ => none

/-- A short description, by which a fault names the place where it arose. -/
def describe : Expr → String
  | .lit c => "literal " ++ c.text
  | .var x => "read of " ++ x.text
  | .unary op _ => "unary " ++ op.title
  | .binary op _ _ => "binary " ++ op.title
  | .compare op _ _ => "compare " ++ op.title
  | .concat parts => "concat of " ++ toString parts.length ++ " parts"
  | .bit _ _ => "index"
  | .range _ _ _ => "index"
  | .ternary _ _ _ => "ternary"
  | .cast _ ty => "cast to " ++ ty.text

end Expr

/-! ## 3. Evaluation without variables -/

/-- Whether a literal is admitted under the limit `limit` on widths. -/
def Literal.admitted (limit : Nat) (c : Literal) : Bool :=
  c.ty.holdsLiterals && decide (c.width ≤ limit)

/-- The second operand of a binary operator, brought to the type of the first; a shift amount
    keeps its own. -/
def Binary.alignLiteral (op : Binary) (lhs rhs : Literal) : Literal :=
  if op.isShift then rhs else rhs.resize lhs.ty

mutual

/-- The value of an expression that reads no variable, if every literal met on the way is
    admitted under `limit` and every operator folds. Of the arms of a ternary only the chosen one
    is met. -/
def Expr.evalWithin (limit : Nat) : Expr → Option Literal
  | .lit c => if c.admitted limit then some c else none
  | .var _ => none
  | .unary op arg => do
      let a ← arg.evalWithin limit
      fold (.unary op) [a] a.ty
  | .binary op lhs rhs => do
      let a ← lhs.evalWithin limit
      let b ← rhs.evalWithin limit
      fold (.binary op) [a, op.alignLiteral a b] a.ty
  | .compare op lhs rhs => do
      let a ← lhs.evalWithin limit
      let b ← rhs.evalWithin limit
      fold (.compare op) [a, b.resize a.ty] .bit
  | .concat parts => do
      let cs ← Expr.evalAllWithin limit parts
      fold .concat cs (.unsigned (totalWidth cs))
  | .bit base pos => do
      let a ← base.evalWithin limit
      let k ← pos.evalWithin limit
      fold .index [a, k] .bit
  | .range base msb lsb => do
      let a ← base.evalWithin limit
      let hi ← msb.evalWithin limit
      let lo ← lsb.evalWithin limit
      if lo.bits ≤ hi.bits ∧ hi.bits < a.width then
        fold (.slice hi.bits lo.bits) [a] (.unsigned (hi.bits - lo.bits + 1))
      else none
  | .ternary cond yes no => do
      let c ← cond.evalWithin limit
      if c.isTrue then yes.evalWithin limit else no.evalWithin limit
  | .cast arg ty => do
      let a ← arg.evalWithin limit
      fold .cast [a] ty
termination_by structural e => e

/-- The values of all the expressions, if each has one. -/
def Expr.evalAllWithin (limit : Nat) : List Expr → Option (List Literal)
  | [] => some []
  | e :: es => do
      let c ← e.evalWithin limit
      let cs ← Expr.evalAllWithin limit es
      pure (c :: cs)
termination_by structural es => es

end

namespace Expr

/-- The value of an expression that reads no variable, for literals of any admissible width. -/
def eval? (e : Expr) : Option Literal := e.evalWithin storageBits

/-- The value of a constant expression used as a position, if a 32-bit word holds it. -/
def position? (e : Expr) : Option Nat := e.eval?.bind Literal.position?

@[simp] theorem evalWithin_lit (limit : Nat) (c : Literal) :
    (Expr.lit c).evalWithin limit = if c.admitted limit then some c else none := by
  rw [evalWithin]

@[simp] theorem evalWithin_var (limit : Nat) (x : VarId) :
    (Expr.var x).evalWithin limit = none := by
  rw [evalWithin]

@[simp] theorem evalAllWithin_nil (limit : Nat) : evalAllWithin limit [] = some [] := by
  rw [evalAllWithin]

end Expr

end BitFlow
