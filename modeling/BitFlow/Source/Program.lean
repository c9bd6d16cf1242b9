import BitFlow.Source.Stmt

/-!
# Programs

A program declares variables and ports and has a body. `Program.variableAt?` and `Program.portAt?`
look a declaration up by its place in the list. `variableById?` looks it up by the number it
carries; of two declarations with one number the later one counts.
-/

namespace BitFlow

/-- A storage location of a fixed type; `dims` lists the dimensions of an array of it. -/
structure Variable where
  id : VarId
  name : String
  ty : Ty
  dims : List Nat
  deriving DecidableEq, Repr, Inhabited

/-- Whether a variable is an array. -/
def Variable.isArray (v : Variable) : Bool := !v.dims.isEmpty

/-- The direction of a port, seen from the program. -/
inductive Direction where
  | input
  | output
  deriving DecidableEq, Repr

/-- The written form of a direction. -/
def Direction.text : Direction → String
  | .input => "in"
  | .output => "out"

/-- A channel to the outside that carries data of a fixed type in one direction. -/
structure Port where
  id : PortId
  name : String
  ty : Ty
  direction : Direction
  deriving DecidableEq, Repr

/-- A complete program. -/
structure Program where
  name : String
  vars : List Variable
  ports : List Port
  body : List Stmt

instance : Inhabited Program := ⟨⟨"", [], [], []⟩⟩

/-- The variable declared at place `x`. -/
def Program.variableAt? (p : Program) (x : VarId) : Option Variable := p.vars[x.index]?

/-- The port declared at place `q`. -/
def Program.portAt? (p : Program) (q : PortId) : Option Port := p.ports[q.index]?

/-- The last of the declarations that carry the number `x`. -/
def variableById? (vars : List Variable) (x : VarId) : Option Variable :=
  vars.reverse.find? (fun v => v.id = x)

theorem id_of_variableById? {vars : List Variable} {x : VarId} {v : Variable}
    (h : variableById? vars x = some v) : v.id = x := by
  have := List.find?_some h
  simpa using this

theorem mem_of_variableById? {vars : List Variable} {x : VarId} {v : Variable}
    (h : variableById? vars x = some v) : v ∈ vars := by
  have := List.mem_of_find?_eq_some h
  simpa using this

end BitFlow
