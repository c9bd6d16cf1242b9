import BitFlow.Lower.Stmt
import BitFlow.Proofs.World.Splice
import Mathlib.Logic.Function.Basic

/-!
# Running a program: statements

A run of a program reads and writes ports; what it does there, in order, is its trace. Statements
change the variables and the trace, and go on to the next statement or leave the loop they stand in.
Runs are cut off after a number of rounds of each loop, and what matters of a run that is cut off is
its trace so far.

A program is strictly typed when what is stored or written has the very type of its place.

Main definitions: `World.execAll`, `Program.Emits`, `Program.Halts`, `Program.Strict`.
-/

namespace BitFlow

/-! ## 1. Traces -/

/-- What a run does at a port. -/
inductive Event where
  | read (q : PortId) (c : Literal)
  | write (q : PortId) (c : Literal)
  deriving DecidableEq, Repr

/-- The number of reads of a port in a trace. -/
def readsOf (q : PortId) (t : List Event) : Nat :=
  t.countP fun
    | .read q' _ => decide (q' = q)
    | .write _ _ => false

/-- What an instruction that touches a port does there: it reads its result, or it writes its first
    operand. -/
def PortUse.event (u : PortUse) (result : Literal) (args : List Literal) : Event :=
  match u.access with
  | .read => .read u.port result
  | .write => .write u.port (args.headD result)

/-- What a run has reached: what the variables hold, and the trace so far. -/
structure Memory where
  store : Store
  trace : List Event

/-- How control leaves a statement. -/
inductive Turn where
  /-- To the statement behind it. -/
  | onward
  /-- Out of the innermost loop. -/
  | leave
  /-- To the next round of the innermost loop. -/
  | again
  deriving DecidableEq, Repr

/-- How a run ends, or with which trace it is cut off. -/
inductive Outcome where
  | done (turn : Turn) (μ : Memory)
  | pause (t : List Event)

/-- The trace of a run. -/
def Outcome.trace : Outcome → List Event
  | .done _ μ => μ.trace
  | .pause t => t

/-! ## 2. Acts -/

/-- What runs from a memory on, cut off after that many rounds of each loop. -/
abbrev Act := Nat → Memory → Outcome

namespace Act

/-- Nothing. -/
def skip : Act := fun _ μ => .done .onward μ

/-- `x`, and then `y` unless `x` leaves. -/
def andThen (x y : Act) : Act := fun n μ =>
  match x n μ with
  | .done .onward μ' => y n μ'
  | o => o

/-- While `test` holds, `body` followed by `step`. What says to go on with the next round goes on to
    the step, or from inside the step to the test; what leaves the loop leaves it. -/
def rounds (test : Store → Bool) (body step : Act) : Act
  | 0, μ => if test μ.store then .pause μ.trace else .done .onward μ
  | n + 1, μ =>
      if test μ.store then
        match body n μ with
        | .pause t => .pause t
        | .done .leave μ' => .done .onward μ'
        | .done _ μ' =>
            match step n μ' with
            | .pause t => .pause t
            | .done .leave μ'' => .done .onward μ''
            | .done _ μ'' => rounds test body step n μ''
      else .done .onward μ

end Act

/-! ## 3. Statements -/

/-- The memory in which `x` holds `c`. -/
def Memory.set (μ : Memory) (x : VarId) (c : Literal) : Memory :=
  { μ with store := Function.update μ.store x c }

/-- The memory after one more event. -/
def Memory.log (μ : Memory) (e : Event) : Memory := { μ with trace := μ.trace ++ [e] }

/-- The type of a port. -/
def portType (ports : List Port) (q : PortId) : Ty := ((ports[q.index]?).map Port.ty).getD .bit

namespace World

variable (w : World) (ports : List Port)

/-- The range that a selector addresses. -/
def selected (σ : Store) : Selector → BitRange
  | .bit pos => ⟨(w.eval σ pos).bits, (w.eval σ pos).bits⟩
  | .range msb lsb => ⟨(w.eval σ msb).bits, (w.eval σ lsb).bits⟩

/-- An assignment. -/
def assign (x : VarId) (ss : List Selector) (e : Expr) (μ : Memory) : Memory :=
  μ.set x ((μ.store x).stored (ss.map (w.selected μ.store)) (w.eval μ.store e))

/-- A read of a port. -/
def readPort (q : PortId) (x : VarId) (μ : Memory) : Memory :=
  let c := w.input q (portType ports q) (readsOf q μ.trace)
  (μ.set x c).log (.read q c)

mutual

/-- What a statement does. -/
def exec : Stmt → Act
  | .assign x ss e => fun _ μ => .done .onward (w.assign x ss e μ)
  | .read q x => fun _ μ => .done .onward (w.readPort ports q x μ)
  | .write q e => fun _ μ => .done .onward (μ.log (.write q (w.eval μ.store e)))
  | .branch arms otherwise => execArms arms (execAll otherwise)
  | .whileLoop cond body => .rounds (fun σ => (w.eval σ cond).isTrue) (execAll body) .skip
  | .forLoop init cond step body =>
      (execAll init).andThen
        (.rounds (fun σ => (w.eval σ cond).isTrue) (execAll body) (execAll step))
  | .breakLoop => fun _ μ => .done .leave μ
  | .continueLoop => fun _ μ => .done .again μ
termination_by structural s => s

/-- What some statements do, one after the other. -/
def execAll : List Stmt → Act
  | [] => .skip
  | s :: ss => (exec s).andThen (execAll ss)
termination_by structural ss => ss

/-- What the first arm does whose condition holds, and what `otherwise` does if there is none. -/
def execArms : List (Expr × List Stmt) → Act → Act
  | [], otherwise => otherwise
  | (cond, body) :: rest, otherwise => fun n μ =>
      if (w.eval μ.store cond).isTrue then execAll body n μ else execArms rest otherwise n μ
termination_by structural arms => arms

end

end World

/-! ## 4. Strictly typed programs -/

/-- The range that a selector addresses, if it is constant and its positions are typed. -/
def Selector.rangeIn (vars : List Variable) : Selector → Option BitRange
  | .bit pos => do
      let _ ← pos.typeIn vars
      let k ← pos.position?
      pure ⟨k, k⟩
  | .range msb lsb => do
      let _ ← msb.typeIn vars
      let _ ← lsb.typeIn vars
      let hi ← msb.position?
      let lo ← lsb.position?
      pure ⟨hi, lo⟩

/-- The type of what is stored into the parts of `x` that the selectors address. -/
def targetType (vars : List Variable) (x : VarId) (ss : List Selector) : Option Ty := do
  let d ← variableById? vars x
  let ranges ← ss.mapM (Selector.rangeIn vars)
  pure (Lower.storeType d.ty ranges)

section Typed

variable (vars : List Variable) (ports : List Port)

mutual

/-- Every expression of the statement is strictly typed, and what is stored or written has the type
    of its place. -/
def Stmt.typed : Stmt → Bool
  | .assign x ss e => (e.typeIn vars).isSome && e.typeIn vars == targetType vars x ss
  | .read q x => (ports[q.index]?).any fun port =>
      (variableById? vars x).map Variable.ty == some port.ty
  | .write q e => (ports[q.index]?).any fun port => e.typeIn vars == some port.ty
  | .branch arms otherwise => Stmt.armsTyped arms && Stmt.allTyped otherwise
  | .whileLoop cond body => (cond.typeIn vars).isSome && Stmt.allTyped body
  | .forLoop init cond step body =>
      Stmt.allTyped init && (cond.typeIn vars).isSome && Stmt.allTyped step && Stmt.allTyped body
  | .breakLoop => true
  | .continueLoop => true
termination_by structural s => s

/-- All statements are strictly typed. -/
def Stmt.allTyped : List Stmt → Bool
  | [] => true
  | s :: ss => Stmt.typed s && Stmt.allTyped ss
termination_by structural ss => ss

/-- All arms are strictly typed. -/
def Stmt.armsTyped : List (Expr × List Stmt) → Bool
  | [] => true
  | (cond, body) :: rest =>
      (cond.typeIn vars).isSome && Stmt.allTyped body && Stmt.armsTyped rest
termination_by structural arms => arms

end

end Typed

/-- **A strictly typed program**: variables and ports are numbered by their places, there are no
    arrays, every type holds literals, and all statements are strictly typed. -/
structure Program.Strict (p : Program) : Prop where
  vars : ∀ (i : Nat) (d : Variable), p.vars[i]? = some d →
    d.id = ⟨i⟩ ∧ d.dims = [] ∧ d.ty.holdsLiterals = true
  ports : ∀ (i : Nat) (port : Port), p.ports[i]? = some port →
    port.id = ⟨i⟩ ∧ port.ty.holdsLiterals = true
  body : Stmt.allTyped p.vars p.ports p.body = true

/-! ## 5. Runs of programs -/

namespace Program

variable (p : Program) (w : World)

/-- The memory in which a program starts: no variable is defined. -/
def start : Memory :=
  ⟨fun x => w.undef (((variableById? p.vars x).map Variable.ty).getD .bit), []⟩

/-- The run of a program, cut off after that many rounds of each loop. -/
def run (n : Nat) : Outcome := w.execAll p.ports p.body n (p.start w)

/-- **Some run of the program begins with the events `t`.** -/
def Emits (t : List Event) : Prop := ∃ n, t <+: (p.run w n).trace

/-- **The program comes to an end with the events `t`.** -/
def Halts (t : List Event) : Prop := ∃ n turn μ, p.run w n = .done turn μ ∧ μ.trace = t

end Program

end BitFlow
