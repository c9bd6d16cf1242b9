import BitFlow.Proofs.Bench
import BitFlow.Proofs.Graph.Route
import BitFlow.Proofs.Meaning.Draft

/-!
# Sessions

A session is a list of commands to a bench: new blocks and edges, new instructions, writes and
reads of variables, and seals. The log of a session holds the bench together with what was written
and what was answered.

What a session is about is told by a walk along a route of the finished graph. The walk keeps a
token for every variable and every phi: the operand whose content they hold. Literals, the
undefined content and instructions are their own tokens; variables take the token that was last
written, and the phis of a block take, all at once, the tokens of their operands for the edge on
which the block is entered.
-/

namespace BitFlow

/-! ## 1. Commands -/

/-- A command to a bench. -/
inductive Command where
  | block (label : String)
  | edge (source : BlockId) (cond : Option Operand) (target : BlockId)
  | instr (b : BlockId) (position : Option Nat) (ty : Ty) (origin : Origin) (i : Instr)
  | write (x : VarId) (b : BlockId) (o : Operand)
  | read (x : VarId) (b : BlockId)
  /-- The block is sealed: all its predecessors are known. -/
  | close (b : BlockId)

/-- What a command does to the bench; a read has an answer. -/
def Command.run : Command → Build (Option Operand)
  | .block label => do
      discard (Edit.addBlock label .live)
      pure none
  | .edge source cond target => do
      Edit.addEdge source cond target
      pure none
  | .instr b position ty origin i => do
      discard (Edit.insertInstr b position ty origin i)
      pure none
  | .write x b o => do
      discard (Build.write x [] b o)
      pure none
  | .read x b => do
      let o ← Track.read x b
      pure (some o)
  | .close b => do
      Track.sealBlock b
      pure none

/-! ## 2. Logs -/

/-- A bench with what was written to it and read from it. -/
structure Log where
  bench : Bench
  /-- What was written where, the latest write first. -/
  writes : List ((BlockId × VarId) × Operand)
  /-- What was read where. -/
  answers : List (BlockId × Operand)

namespace Log

/-- The log of an empty session. -/
def fresh (name : String) (vars : List Variable) (nameValues : Bool) (literalLimit : Nat) : Log :=
  ⟨.fresh name vars nameValues literalLimit, [], []⟩

abbrev graph (l : Log) : Graph := l.bench.graph

/-- Graph and tables of a log. -/
abbrev tracked (l : Log) : Tracked := l.bench.tracked

/-- What was last written to a variable in a block. -/
def lastWrite (l : Log) : Writes := fun b x => l.writes.lookup (b, x)

/-- An operand that names no value, or one that exists. -/
def names (l : Log) (o : Operand) : Bool := o.value?.all (·.index < l.graph.values.size)

/-- The commands that a session may contain. No edge leads to the entry. A block is written only as
    long as it has no successor, and what is written is a literal, the undefined content, an
    instruction, or what was read in that block.

    Conditions and operands name values that exist. The operations ask for less, but the name of a
    value that is still to come says nothing of that value: the next read may take it for a phi, or
    the next instruction for itself. No read looks at conditions and operands; they are asked to
    exist because a drawing of the session has a meaning for each of them. -/
def admits (l : Log) : Command → Bool
  | .block _ => true
  | .edge _ cond target => target ≠ l.graph.entry && cond.all l.names
  | .instr _ _ _ _ i => i.operands.all l.names
  | .write _ b o =>
      (l.graph.block? b).isSome && (l.graph.branches b).isEmpty &&
        (o.value?.all (fun v => (l.graph.instr? v).isSome) || l.answers.contains (b, o))
  | .read _ b => (l.graph.block? b).isSome
  | .close _ => true

/-- The log after a command that left the bench `s` and gave an answer, if it was a read. -/
def after (l : Log) (s : Bench) (answer : Option Operand) : Command → Log
  | .write x b o => ⟨s, ((b, x), o) :: l.writes, l.answers⟩
  | .read _ b => ⟨s, l.writes, answer.toList.map (b, ·) ++ l.answers⟩
  | _ => ⟨s, l.writes, l.answers⟩

/-- One command, if it is admitted and succeeds. -/
def perform (l : Log) (c : Command) : Option Log :=
  if l.admits c then
    match c.run.run l.bench with
    | .ok answer s => some (l.after s answer c)
    | .error _ _ => none
  else none

/-- A session: commands one after the other, all of them admitted and successful. -/
def performAll : Log → List Command → Option Log
  | l, [] => some l
  | l, c :: cs => (l.perform c).bind fun l' => performAll l' cs

end Log

/-! ## 3. Tokens -/

/-- What phis and variables hold, each told by an operand. -/
structure Tokens where
  phi : ValueId → Operand
  var : VarId → Operand

namespace Graph

/-- The token of an operand, where `phi` gives those of the phis. An operand that was removed counts
    as what it stands for. -/
def token (g : Graph) (phi : ValueId → Operand) (o : Operand) : Operand :=
  match g.resolve o with
  | .value v => if (g.phi? v).isSome then phi v else .value v
  | o => o

/-- The token that the phi `v` gets where `b` is entered from `source`, and the one it has
    elsewhere. -/
def phiToken (g : Graph) (before : Tokens) (source : Option BlockId) (b : BlockId) (v : ValueId) :
    Operand :=
  match g.phi? v with
  | some p =>
      if p.block = b then
        match p.incoming.find? fun e => some e.2 = source with
        | some e => g.token before.phi e.1
        | none => before.phi v
      else before.phi v
  | none => before.phi v

/-- The tokens at the end of a route on which `writes` tells what was last written in each block. At
    the start every variable is undefined. -/
def walkTokens (g : Graph) (vars : List Variable) (writes : Writes) : List BlockId → Tokens
  | [] => ⟨.value, fun x => .undef (((variableById? vars x).map Variable.ty).getD .bit)⟩
  | b :: π =>
      let before := g.walkTokens vars writes π
      let phi := g.phiToken before π.head? b
      ⟨phi, fun x =>
        match writes b x with
        | some o => g.token phi o
        | none => before.var x⟩

theorem walkTokens_of_none {g : Graph} {vars : List Variable} {writes : Writes} {b : BlockId}
    {x : VarId} (h : writes b x = none) (π : List BlockId) :
    (g.walkTokens vars writes (b :: π)).var x = (g.walkTokens vars writes π).var x := by
  rw [walkTokens]
  dsimp only
  rw [h]

theorem walkTokens_of_some {g : Graph} {vars : List Variable} {writes : Writes} {b : BlockId}
    {x : VarId} {o : Operand} (h : writes b x = some o) (π : List BlockId) :
    (g.walkTokens vars writes (b :: π)).var x =
      g.token (g.walkTokens vars writes (b :: π)).phi o := by
  rw [walkTokens]
  dsimp only
  rw [h]

end Graph

end BitFlow
