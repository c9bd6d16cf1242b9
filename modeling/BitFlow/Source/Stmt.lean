import BitFlow.Source.Expr

/-!
# Statements

Statements of the source language: assignments (whole or through an index), port accesses,
conditionals with any number of arms, and two forms of loop with `break` and `continue`.
-/

namespace BitFlow

/-- The part of a variable that an assignment addresses. -/
inductive Selector where
  | bit (pos : Expr)
  | range (msb lsb : Expr)

/-- A statement of the source language. -/
inductive Stmt where
  /-- `target := value`, or the parts of `target` that the selectors address. -/
  | assign (target : VarId) (selectors : List Selector) (value : Expr)
  /-- The next datum of an input port goes into `target`. -/
  | read (port : PortId) (target : VarId)
  /-- `value` goes out at an output port. -/
  | write (port : PortId) (value : Expr)
  /-- The body of the first arm whose condition holds, else `otherwise`. -/
  | branch (arms : List (Expr × List Stmt)) (otherwise : List Stmt)
  | whileLoop (cond : Expr) (body : List Stmt)
  /-- `init` once, then while `cond` holds `body` followed by `step`. -/
  | forLoop (init : List Stmt) (cond : Expr) (step body : List Stmt)
  | breakLoop
  /-- On to the next round of the innermost loop, through its step. -/
  | continueLoop

instance : Inhabited Stmt := ⟨.breakLoop⟩

/-- The name of a statement's form. -/
def Stmt.formName : Stmt → String
  | .assign _ [] _ => "assign"
  | .assign _ (_ :: _) _ => "indexed assign"
  | .read _ _ => "read"
  | .write _ _ => "write"
  | .branch _ _ => "if"
  | .whileLoop _ _ => "while"
  | .forLoop _ _ _ _ => "for"
  | .breakLoop => "break"
  | .continueLoop => "continue"

end BitFlow
