import BitFlow.Graph.Edit
import BitFlow.Store.Focus

/-!
# Which definition reaches the end of a block

`Reaching` records, for variables and blocks, the operand that a variable holds at the end of a
block. Beside that table stands its inverse, from a value to the places that record it. Phis of
blocks that are not sealed yet wait in `pending` for their operands.

Main statements: `Reaching.definition?_record` and `Reaching.mem_holders_record` -- recording a
definition changes the table and its inverse in step.
-/

namespace BitFlow

/-! ## 1. Counts -/

/-- How many phis were made, removed again, and filled when their block was sealed. -/
structure Stats where
  created : Nat
  removed : Nat
  completed : Nat
  deriving DecidableEq, Repr

namespace Stats

/-- No phi yet. -/
def zero : Stats := ⟨0, 0, 0⟩

/-- The phis that were not removed. -/
def live (s : Stats) : Nat := s.created - s.removed

/-- The share of the phis that were removed; zero where there were none. -/
def removalRatio (s : Stats) : Float :=
  if s.created = 0 then 0.0 else Float.ofNat s.removed / Float.ofNat s.created

end Stats

/-! ## 2. The tables -/

/-- Places are listed by block, then by variable. -/
instance : Ranked (BlockId × VarId) := ⟨fun p => (p.1.index, p.2.index)⟩

/-- Waiting phis are listed by variable. -/
instance : Ranked (VarId × ValueId) := ⟨fun p => (p.1.index, p.2.index)⟩

/-- The definitions that reach the ends of blocks. -/
structure Reaching where
  vars : List Variable
  /-- What a variable holds at the end of a block. -/
  defs : Table (BlockId × VarId) Operand
  /-- The places that record a value. -/
  holders : Multimap ValueId (BlockId × VarId)
  /-- The phis of unsealed blocks that wait for operands. -/
  pending : Multimap BlockId (VarId × ValueId)
  /-- The phis whose operands are being read. -/
  filling : List ValueId
  /-- Whether values get names after the variables they define. -/
  nameValues : Bool
  /-- The number of names given after each variable. -/
  versions : Table VarId Nat
  stats : Stats

namespace Reaching

/-- No definition yet. -/
def fresh (vars : List Variable) (nameValues : Bool) : Reaching where
  vars := vars
  defs := .empty
  holders := .empty
  pending := .empty
  filling := []
  nameValues := nameValues
  versions := .empty
  stats := .zero

/-- The recorded content of `x` at the end of `b`. -/
def definition? (r : Reaching) (x : VarId) (b : BlockId) : Option Operand := r.defs.get? (b, x)

/-- The inverse without the place `p` under the value that was recorded there. -/
def unhold (r : Reaching) (p : BlockId × VarId) : Multimap ValueId (BlockId × VarId) :=
  match r.defs.get? p with
  | some (.value old) => r.holders.remove old p
  | _ => r.holders

/-- The tables with `o` as the content of `x` at the end of `b`. -/
def record (r : Reaching) (x : VarId) (b : BlockId) (o : Operand) : Reaching :=
  { r with
    defs := r.defs.insert (b, x) o
    holders :=
      match o with
      | .value v => (r.unhold (b, x)).add v (b, x)
      | _ => r.unhold (b, x) }

/-- The tables with `o` at each place that recorded the value `v`. -/
def reroute (r : Reaching) (v : ValueId) (o : Operand) : Reaching :=
  (r.holders.image v).foldl (fun r p => r.record p.2 p.1 o) { r with holders := r.holders.drop v }

/-- Whether some phi still waits for its operands. -/
def hasPending (r : Reaching) : Bool := !r.pending.keys.isEmpty

/-- The blocks in which phis wait for operands, in order. -/
def pendingBlocks (r : Reaching) : List BlockId := Ranked.ofList r.pending.keys

/-- The tables with one phi more on the count. -/
def countCreated (r : Reaching) : Reaching :=
  { r with stats := { r.stats with created := r.stats.created + 1 } }

/-- The tables with one removed phi more on the count. -/
def countRemoved (r : Reaching) : Reaching :=
  { r with stats := { r.stats with removed := r.stats.removed + 1 } }

/-- The tables with one phi more on the count of those filled by sealing. -/
def countCompleted (r : Reaching) : Reaching :=
  { r with stats := { r.stats with completed := r.stats.completed + 1 } }

@[simp] theorem definition?_record (r : Reaching) (x y : VarId) (b c : BlockId) (o : Operand) :
    (r.record x b o).definition? y c =
      if b = c ∧ x = y then some o else r.definition? y c := by
  simp [record, definition?]

theorem mem_holders_unhold (r : Reaching) (p q : BlockId × VarId) (v : ValueId) :
    q ∈ (r.unhold p).image v ↔
      q ∈ r.holders.image v ∧ ¬ (r.defs.get? p = some (.value v) ∧ q = p) := by
  unfold unhold
  split
  · rename_i old h
    rw [Multimap.mem_image_remove, h]
    simp
  · rename_i h
    constructor
    · exact fun hq => ⟨hq, fun hv => h v hv.1⟩
    · exact fun hq => hq.1

theorem mem_holders_record (r : Reaching) (x : VarId) (b : BlockId) (o : Operand)
    (q : BlockId × VarId) (v : ValueId) :
    q ∈ (r.record x b o).holders.image v ↔
      (o = .value v ∧ q = (b, x)) ∨
        (q ∈ r.holders.image v ∧ ¬ (r.definition? x b = some (.value v) ∧ q = (b, x))) := by
  rw [← show r.defs.get? (b, x) = r.definition? x b from rfl, ← mem_holders_unhold]
  cases o with
  | value w => simp [record, Multimap.mem_image_add]
  | lit c => simp [record]
  | undef ty => simp [record]

end Reaching

/-! ## 3. Computations on graph and tables -/

/-- A graph together with the definitions that reach the ends of its blocks. -/
structure Tracked where
  graph : Graph
  reaching : Reaching

/-- A computation on a graph and its tables. -/
abbrev Track := EStateM Fault Tracked

namespace Track

/-- A change of the graph alone. -/
def onGraph {α : Type} (x : Edit α) : Track α :=
  focus Tracked.graph (fun g s => { s with graph := g }) x

instance : MonadLift Edit Track := ⟨onGraph⟩

/-- A change of the tables alone. -/
def onTables (f : Reaching → Reaching) : Track Unit :=
  modify fun s => { s with reaching := f s.reaching }

/-- The declaration of a variable, or a fault. -/
def declaration (x : VarId) : Track Variable := do
  match variableById? (← get).reaching.vars x with
  | some v => pure v
  | none => throw (.unknownVariable x)

/-- A name after the variable `x` for a value that has none yet, if values are to be named. -/
def nameAfter (x : VarId) (o : Operand) : Track Unit := do
  if (← get).reaching.nameValues then
    match o with
    | .value v =>
        if (← Edit.value v).name.isNone then
          let version := ((← get).reaching.versions.get? x).getD 0
          let decl ← declaration x
          onTables fun r => { r with versions := r.versions.insert x (version + 1) }
          Edit.setName v (decl.name ++ "_" ++ toString version)
    | _ => pure ()

end Track

end BitFlow
