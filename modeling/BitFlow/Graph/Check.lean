import BitFlow.Graph.Reach

/-!
# The structural check

`Graph.check` goes through the reachable blocks and reports the first rule that is broken: a block
is sealed, knows its neighbours, lists phis that fit its predecessors, and refers to values that
exist and are attached.

`Graph.portUsage` collects the ports that reachable instructions touch.
-/

namespace BitFlow

namespace Graph

/-- The block of that name, or a fault. -/
def requireBlock (g : Graph) (b : BlockId) : Except Fault Block :=
  match g.block? b with
  | some x => .ok x
  | none => .error (.unknownBlock b)

/-- The value of that name, or a fault. -/
def requireValue (g : Graph) (v : ValueId) : Except Fault Value :=
  match g.value? v with
  | some x => .ok x
  | none => .error (.violated (.unknownValue v))

/-! ## 1. The rules, one by one -/

/-- Stops with a broken rule unless `holds`. -/
def demand (holds : Bool) (rule : Violation) : Except Fault Unit :=
  if holds then .ok () else .error (.violated rule)

/-- The value that an operand names, if it names one, is attached. -/
def checkAttached (g : Graph) (rule : ValueId → Violation) (o : Operand) : Except Fault Unit :=
  match o with
  | .value v => do
      let x ← g.requireValue v
      demand x.isAttached (rule v)
  | _ => .ok ()

/-- The target `t` of a branch of `b` lists `b` as a predecessor. -/
def checkSuccessor (g : Graph) (b t : BlockId) : Except Fault Unit := do
  let there ← g.requireBlock t
  demand (there.preds.contains b) (.edgeUnlisted b t)

/-- A listed phi belongs to the block, is a phi, and has one operand for each predecessor. -/
def checkPhi (g : Graph) (block : Block) (b : BlockId) (v : ValueId) : Except Fault Unit := do
  let x ← g.requireValue v
  demand (x.block == some b) (.ownedElsewhere v b)
  match x.kind with
  | .instr _ => .error (.violated (.phiListed v b))
  | .phi p =>
      let sources := p.incoming.map Prod.snd
      demand (sources == block.preds) (.phiSources v b sources block.preds)

/-- A listed value belongs to the block, and its operands are attached. -/
def checkValue (g : Graph) (b : BlockId) (v : ValueId) : Except Fault Unit := do
  let x ← g.requireValue v
  demand (x.block == some b) (.ownedElsewhere v b)
  x.operands.forM (g.checkAttached (.detachedOperand v))

/-- All rules for one block, in the order in which they are reported. -/
def checkBlock (g : Graph) (b : BlockId) : Except Fault Unit := do
  let block ← g.requireBlock b
  demand block.isSealed (.notSealed b)
  block.successors.forM (g.checkSuccessor b)
  let listed := block.preds.mergeSort fun x y => x.index ≤ y.index
  demand (listed == g.flow.sources b) (.predecessorsDisagree b block.preds)
  block.phis.forM (g.checkPhi block b)
  (block.phis ++ block.instrs).forM (g.checkValue b)
  (block.branches.filterMap Branch.cond).forM (g.checkAttached (.detachedCondition b))

/-- The rules for every reachable block; the first one broken is the answer. -/
def check (g : Graph) : Except Fault Unit := g.flow.reachable.forM g.checkBlock

end Graph

/-! ## 2. Ports -/

instance : Ranked PortId := ⟨fun p => (p.index, 0)⟩

/-- The ports that are read and those that are written, each once and in order. -/
structure PortUsage where
  read : List PortId
  written : List PortId
  deriving DecidableEq, Repr

namespace PortUsage

/-- The usage with one more access. -/
def add (u : PortUsage) (p : PortUse) : PortUsage :=
  match p.access with
  | .read => { u with read := Ranked.insert p.port u.read }
  | .write => { u with written := Ranked.insert p.port u.written }

/-- Every port that is read or written. -/
def all (u : PortUsage) : List PortId := Ranked.ofList (u.read ++ u.written)

end PortUsage

namespace Graph

/-- The port that a value touches, if it is an instruction that touches one. -/
def portUse? (g : Graph) (v : ValueId) : Except Fault (Option PortUse) := do
  match (← g.requireValue v).kind with
  | .instr i => pure i.portUse
  | .phi _ => pure none

/-- The ports that the instructions of reachable blocks touch. -/
def portUsage (g : Graph) : Except Fault PortUsage := do
  let blocks ← g.reachable.mapM g.requireBlock
  let uses ← (blocks.flatMap Block.instrs).mapM g.portUse?
  pure ((uses.filterMap id).foldl PortUsage.add ⟨[], []⟩)

end Graph

end BitFlow
