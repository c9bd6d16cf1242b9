import BitFlow.Build.Expr
import BitFlow.Build.Write

/-!
# The state of a lowering

While statements are lowered, the loops that are open at the moment stand on a stack, innermost
first. New blocks are labelled with running numbers. A block made under one that nothing reaches is
not reached either, so dead code never gets an edge into live code.
-/

namespace BitFlow

/-- An open loop. -/
structure LoopFrame where
  label : String
  /-- The block that tests the condition; the next round begins there. -/
  head : BlockId
  /-- The live blocks that leave the loop by `break`. -/
  breaks : List BlockId
  /-- What runs between two rounds. -/
  step : List Stmt

/-- The state of a lowering. -/
structure Lowering where
  bench : Bench
  /-- The open loops, innermost first. -/
  loops : List LoopFrame
  /-- The number that the next label gets. -/
  nextLabel : Nat

/-- A computation on the state of a lowering. -/
abbrev Lower := EStateM Fault Lowering

namespace Lower

/-- A computation on the bench alone. -/
def onBench {α : Type} (x : Build α) : Lower α :=
  focus Lowering.bench (fun b s => { s with bench := b }) x

instance : MonadLift Build Lower := ⟨onBench⟩

/-! ## 1. Blocks -/

/-- A label that no other construct has. -/
def freshLabel (construct : String) : Lower String := do
  let n := (← get).nextLabel
  modify fun s => { s with nextLabel := n + 1 }
  pure (construct ++ toString n)

/-- A new block, which nothing reaches if nothing reaches `parent`. -/
def newBlock (label : String) (parent : BlockId) : Lower BlockId := do
  let kind := if (← Edit.block parent).isUnreachable then BlockKind.unreachable else .live
  Edit.addBlock label kind

/-- A new sealed block that nothing reaches, for the code after a jump. -/
def deadBlock : Lower BlockId := do
  let label ← freshLabel "dead"
  let b ← Edit.addBlock label .unreachable
  Track.sealBlock b
  pure b

/-- The cursor at the end of a block. -/
def enter (b : BlockId) : Lower Unit := Build.moveTo b none

/-! ## 2. Loops -/

/-- One more open loop. -/
def pushLoop (f : LoopFrame) : Lower Unit :=
  modify fun s => { s with loops := f :: s.loops }

/-- The innermost open loop, which is closed. -/
def popLoop (label : String) : Lower LoopFrame := do
  match (← get).loops with
  | f :: rest =>
      modify fun s => { s with loops := rest }
      pure f
  | [] => throw (.violated (.loopUnderflow label))

/-- The live block `b` leaves the innermost loop. -/
def addBreak (b : BlockId) : Lower Unit :=
  modify fun s =>
    match s.loops with
    | f :: rest => { s with loops := { f with breaks := f.breaks ++ [b] } :: rest }
    | [] => s

end Lower

end BitFlow
