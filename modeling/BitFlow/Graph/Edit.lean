import BitFlow.Graph.Basic

/-!
# Editing the graph

`Edit` is a computation that changes a graph and may stop with a fault; what it changed before the
fault stays changed. Each operation here that changes operands also changes the table of users, so
that the two agree.

Main statements: `Edit.run_block`, `Edit.run_value` -- a look at what exists changes nothing.
-/

namespace BitFlow

/-- A computation on a graph. -/
abbrev Edit := EStateM Fault Graph

namespace Edit

/-! ## 1. Access -/

/-- The block of that name, or a fault. -/
def block (b : BlockId) : Edit Block := do
  match (← get).block? b with
  | some x => pure x
  | none => throw (.unknownBlock b)

/-- The value of that name, or a fault. -/
def value (v : ValueId) : Edit Value := do
  match (← get).value? v with
  | some x => pure x
  | none => throw (.violated (.unknownValue v))

/-- A change of one block, or a fault. -/
def updateBlock (b : BlockId) (f : Block → Block) : Edit Unit := do
  let _ ← block b
  modify (·.updateBlock b f)

/-- A change of one value, or a fault. -/
def updateValue (v : ValueId) (f : Value → Value) : Edit Unit := do
  let _ ← value v
  modify (·.updateValue v f)

/-- The type of an operand. -/
def operandType : Operand → Edit Ty
  | .value v => return (← value v).ty
  | .lit c => pure c.ty
  | .undef ty => pure ty

/-- What an operand stands for. -/
def resolve (o : Operand) : Edit Operand := return (← get).resolve o

/-! ## 2. Blocks and edges -/

/-- A new block. -/
def addBlock (label : String) (kind : BlockKind) : Edit BlockId := do
  let g ← get
  set (g.pushBlock label kind)
  pure g.nextBlock

/-- The edge from `source` to `target`, taken under `cond`. A block that nothing reaches has no
    edges, so there nothing happens. A sealed target takes no new predecessor. -/
def addEdge (source : BlockId) (cond : Option Operand) (target : BlockId) : Edit Unit := do
  if (← block source).isUnreachable then
    return
  let there ← block target
  if there.isSealed && !there.preds.contains source then
    throw (.violated (.lateEdge source target))
  modify (·.updateBlock target (·.addPred source))
  modify (·.updateBlock source fun b => { b with branches := b.branches ++ [⟨cond, target⟩] })
  modify (·.addUses (.branch source) cond.toList)

/-! ## 3. Values -/

/-- A new instruction in `b`, before the one now at `position`, or at the end. -/
def insertInstr (b : BlockId) (position : Option Nat) (ty : Ty) (origin : Origin) (i : Instr) :
    Edit ValueId := do
  let n := (← block b).instrs.length
  let place := position.getD n
  if n < place then
    throw (.violated (.pastEnd place b n))
  let g ← get
  let v := g.nextValue
  set (g.pushValue ty origin b (.instr i))
  modify (·.updateBlock b fun x =>
    { x with instrs := x.instrs.take place ++ v :: x.instrs.drop place })
  modify (·.addUses (.value v) i.operands)
  pure v

/-- A new phi for the variable `x` at the end of the phis of `b`, without operands yet. -/
def appendPhi (b : BlockId) (x : VarId) (ty : Ty) : Edit ValueId := do
  let _ ← block b
  let g ← get
  let v := g.nextValue
  set (g.pushValue ty (.phi x) b (.phi ⟨x, []⟩))
  modify (·.updateBlock b fun y => { y with phis := y.phis ++ [v] })
  pure v

/-- A further operand of a phi, for the edge from `pred`. -/
def pushIncoming (phi : ValueId) (o : Operand) (pred : BlockId) : Edit Unit := do
  match (← value phi).kind with
  | .instr _ => throw (.violated (.notPhi phi))
  | .phi p =>
      modify (·.updateValue phi fun v =>
        { v with kind := .phi { p with incoming := p.incoming ++ [(o, pred)] } })
      modify (·.addUses (.value phi) [o])

/-- A name for a value that has none yet. -/
def setName (v : ValueId) (name : String) : Edit Unit :=
  updateValue v fun x => { x with name := some (x.name.getD name) }

/-! ## 4. Replacement and removal -/

/-- `o` in place of the value `v` in one of its users, which becomes a user of `o`. -/
def replaceUse (v : ValueId) (o : Operand) (u : User) : Edit Unit := do
  match u with
  | .value w => updateValue w (·.replace (.value v) o)
  | .branch b =>
      updateBlock b fun x =>
        { x with
          branches := x.branches.map fun br =>
            { br with cond := br.cond.map (Operand.replace (.value v) o) } }
  modify (·.addUses u [o])

/-- `o` in place of the value `v` everywhere; the answer lists those who referred to `v`. -/
def replaceUses (v : ValueId) (o : Operand) : Edit (List User) := do
  let former := (← get).users v
  modify fun g => { g with uses := g.uses.drop v }
  former.forM (replaceUse v o)
  pure former

/-- The value `v` taken out of its block, and out of the users of its operands. -/
def detach (v : ValueId) : Edit Unit := do
  let x ← value v
  match x.block with
  | none => pure ()
  | some b =>
      updateBlock b fun y =>
        if x.isPhi then { y with phis := y.phis.filter (· ≠ v) }
        else { y with instrs := y.instrs.filter (· ≠ v) }
      modify (·.removeUses (.value v) x.operands)
      modify (·.updateValue v fun z => { z with block := none })

/-! ## 5. Runs of a look -/

theorem run_block (b : BlockId) (g : Graph) :
    (block b).run g =
      match g.block? b with
      | some x => .ok x g
      | none => .error (.unknownBlock b) g := by
  show (match g.block? b with
    | some x => (pure x : Edit Block)
    | none => throw (Fault.unknownBlock b)) g = _
  cases g.block? b <;> rfl

theorem run_value (v : ValueId) (g : Graph) :
    (value v).run g =
      match g.value? v with
      | some x => .ok x g
      | none => .error (.violated (.unknownValue v)) g := by
  show (match g.value? v with
    | some x => (pure x : Edit Value)
    | none => throw (Fault.violated (.unknownValue v))) g = _
  cases g.value? v <;> rfl

end Edit

end BitFlow
