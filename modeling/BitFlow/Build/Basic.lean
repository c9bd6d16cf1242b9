import BitFlow.Emit.Operators
import BitFlow.Reaching.Read

/-!
# The bench

A `Bench` is the graph under construction with the definitions that reach the ends of its blocks
and the cursor at which instructions go. Computations on a part of it -- the graph, the graph with
its tables, the graph with the cursor -- are computations on the bench.
-/

namespace BitFlow

/-- A graph under construction. -/
structure Bench where
  graph : Graph
  reaching : Reaching
  cursor : Cursor
  /-- The width of the widest literal that is admitted. -/
  literalLimit : Nat

/-- The bench of an empty program, its cursor at the end of the entry block. The limit on literals
    is cut at the storage size. -/
def Bench.fresh (name : String) (vars : List Variable) (nameValues : Bool)
    (literalLimit : Nat) : Bench where
  graph := .fresh name
  reaching := .fresh vars nameValues
  cursor := ⟨(Graph.fresh name).entry, none⟩
  literalLimit := min literalLimit storageBits

/-- The value of an expression that reads no variable, under the limit of the bench. -/
def Bench.constant? (s : Bench) (e : Expr) : Option Literal := e.evalWithin s.literalLimit

/-- A computation on a bench. -/
abbrev Build := EStateM Fault Bench

namespace Build

/-- A computation on graph and tables alone. -/
def onTracked {α : Type} (x : Track α) : Build α :=
  focus (fun s => ⟨s.graph, s.reaching⟩)
    (fun t s => { s with graph := t.graph, reaching := t.reaching }) x

/-- A computation on graph and cursor alone. -/
def onPointed {α : Type} (x : Emit α) : Build α :=
  focus (fun s => ⟨s.graph, s.cursor⟩)
    (fun t s => { s with graph := t.graph, cursor := t.cursor }) x

/-- A computation on the graph alone. -/
def onGraph {α : Type} (x : Edit α) : Build α :=
  focus Bench.graph (fun g s => { s with graph := g }) x

instance : MonadLift Track Build := ⟨onTracked⟩

instance : MonadLift Emit Build := ⟨onPointed⟩

instance : MonadLift Edit Build := ⟨onGraph⟩

/-- The cursor at a place of a block. -/
def moveTo (b : BlockId) (position : Option Nat) : Build Unit :=
  modify fun s => { s with cursor := ⟨b, position⟩ }

end Build

end BitFlow
