import BitFlow.Build.Basic

/-!
# Lowering expressions

`Build.lowerExpr` turns an expression into the operand that holds its value. Operands are computed
from left to right, and a fault names the innermost expression in which it arose.

Main statements: `Build.lowerExpr_lit`, `Build.lowerExpr_var` -- the leaves of the lowering.
-/

namespace BitFlow

namespace Build

/-! ## 1. Bounds and leaves -/

/-- A constant bound of a range. -/
def bound (e : Expr) (site : String) : Build Nat :=
  match e.position? with
  | some n => pure n
  | none => throw (.unsupported .variableBound site)

/-- An array has no value, so it is no base of an index either. -/
def refuseArrayBase (base : Expr) (site : String) : Build Unit :=
  match base with
  | .var x => do
      let decl ← Track.declaration x
      if decl.isArray then
        throw (.unsupported (.arrayIndexed decl.name) site)
  | _ => pure ()

/-- A literal under the limit of the bench. -/
def literal (c : Literal) (site : String) : Build Operand := do
  let limit := (← get).literalLimit
  if c.admitted limit then pure (.lit c)
  else throw (.unsupported (.wideLiteral limit) site)

/-- The content of a variable at the cursor. -/
def variableRead (x : VarId) (site : String) : Build Operand := do
  let decl ← Track.declaration x
  if decl.isArray then
    throw (.unsupported (.arrayAsValue decl.name) site)
  Track.read x (← get).cursor.block

/-- The two operands of a binary operator at the types that it asks for. -/
def align (op : Binary) (lhs rhs : Operand) (site : String) : Build (Operand × Operand) :=
  if op.isShift then pure (lhs, rhs) else Emit.coerce lhs rhs site

/-! ## 2. All expressions -/

mutual

/-- The operand that holds the value of an expression; what it computes goes to the cursor. -/
def lowerExpr (e : Expr) : Build Operand := do
  match e with
  | .lit c => literal c e.describe
  | .var x => variableRead x e.describe
  | .unary op arg => do
      let a ← lowerExpr arg
      Emit.unary (.unary op) a e.describe
  | .binary op lhs rhs => do
      let a ← lowerExpr lhs
      let b ← lowerExpr rhs
      let (a, b) ← align op a b e.describe
      Emit.binary (.binary op) a b e.describe
  | .compare op lhs rhs => do
      let a ← lowerExpr lhs
      let b ← lowerExpr rhs
      let (a, b) ← Emit.coerce a b e.describe
      Emit.compare (.compare op) a b e.describe
  | .concat parts => do
      let ops ← lowerExprs parts
      Emit.concat ops e.describe
  | .bit base pos => do
      refuseArrayBase base e.describe
      let a ← lowerExpr base
      let k ← lowerExpr pos
      Emit.index a k e.describe
  | .range base msb lsb => do
      refuseArrayBase base e.describe
      let a ← lowerExpr base
      let hi ← bound msb e.describe
      let lo ← bound lsb e.describe
      Emit.slice a hi lo e.describe
  | .ternary cond yes no => do
      let c ← lowerExpr cond
      let c ← Emit.condition c e.describe
      let a ← lowerExpr yes
      let b ← lowerExpr no
      let (a, b) ← Emit.coerce a b e.describe
      Emit.select c a b e.describe
  | .cast arg ty => do
      let a ← lowerExpr arg
      Emit.cast a ty e.describe
termination_by structural e

/-- The operands that hold the values of some expressions, from left to right. -/
def lowerExprs (es : List Expr) : Build (List Operand) := do
  match es with
  | [] => pure []
  | e :: es => do
      let o ← lowerExpr e
      let os ← lowerExprs es
      pure (o :: os)
termination_by structural es

end

/-- The truth value of an expression. -/
def lowerCondition (e : Expr) : Build Operand := do
  let o ← lowerExpr e
  Emit.condition o e.describe

/-- What a condition is known to be without running the program. -/
def knownCondition (e : Expr) : Build (Option Bool) :=
  return ((← get).constant? e).map Literal.isTrue

theorem lowerExpr_lit (c : Literal) :
    lowerExpr (.lit c) = literal c (Expr.lit c).describe := by
  rw [lowerExpr]

theorem lowerExpr_var (x : VarId) :
    lowerExpr (.var x) = variableRead x (Expr.var x).describe := by
  rw [lowerExpr]

end Build

end BitFlow
