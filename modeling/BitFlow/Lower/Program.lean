import BitFlow.Graph.Check
import BitFlow.Lower.Stmt
import BitFlow.Settings.Basic

/-!
# Lowering programs

`Program.lower` turns a program into its graph. `Lowering.start`, `Lower.program` and
`Lowering.finish` are its three steps: the empty graph, the body, and the check of the result.
-/

namespace BitFlow

/-! ## 1. The three steps -/

/-- The state before the body of a program is lowered. -/
def Lowering.start (p : Program) (s : Settings) : Lowering where
  bench := .fresh p.name p.vars s.nameValues s.literalLimit
  loops := []
  nextLabel := 0

/-- What leads on to the next round of the innermost open loop: its step. -/
def Lower.innermostAdvance (p : Program) : List LoopFrame → BlockId → Lower BlockId
  | [] => pure
  | f :: _ => Lower.lowerStmts p pure f.step

/-- The body of a program from the entry block on; the answer is the block in which it ends. -/
def Lower.program (p : Program) : Lower BlockId := do
  let entry := (← get).bench.graph.entry
  if !(← Edit.block entry).isSealed then
    Track.sealBlock entry
  let exit ← Lower.lowerStmts p (Lower.innermostAdvance p (← get).loops) p.body entry
  Build.onGraph (modify fun g => { g with exit := some exit })
  pure exit

/-- The check of a finished lowering: no loop is open, no phi waits, and the graph is in order. -/
def Lowering.finish (l : Lowering) : Except Fault Unit :=
  match l.loops with
  | f :: _ => .error (.violated (.loopOpen f.label))
  | [] =>
      if l.bench.reaching.hasPending then
        .error (.violated (.phisIncomplete l.bench.reaching.pendingBlocks))
      else l.bench.graph.check

/-! ## 2. The whole lowering -/

/-- The result of a lowering. -/
structure Lowered where
  graph : Graph
  stats : Stats

/-- The result that a lowering has reached. -/
def Lowering.result (l : Lowering) : Lowered := ⟨l.bench.graph, l.bench.reaching.stats⟩

/-- The graph of a program, checked if the settings say so. -/
def Program.lower (p : Program) (s : Settings) : Except Fault Lowered :=
  match (Lower.program p).run (.start p s) with
  | .error e _ => .error e
  | .ok _ l => do
      if s.verify then l.finish
      pure l.result

/-- Why a lowering under given settings fails. -/
inductive Failure where
  | lowering (fault : Fault)
  | settings (fault : SettingsFault)
  deriving DecidableEq, Repr

/-- The wording of a failure. -/
def Failure.message : Failure → String
  | .lowering fault => "Lowering error: " ++ fault.message
  | .settings fault => "Configuration error: " ++ fault.message?.getD ""

/-- The graph of a program under settings that are validated first. -/
def Program.lowerValid (p : Program) (s : Settings) : Except Failure Lowered := do
  s.validate.mapError .settings
  (p.lower s).mapError .lowering

end BitFlow
