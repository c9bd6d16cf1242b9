import BitFlow.Reaching.Phi

/-!
# Reading variables and sealing blocks

`Track.read x b` is the content of `x` at the end of `b`. If `b` records none, the answer is looked
for in its predecessors: a block that is not sealed gets a phi that waits for its operands, one
without predecessors leaves the variable undefined, one with a single predecessor answers as that
does, and one with several gets a phi with an operand for each. The answer is recorded.

A phi is recorded before its operands are read, which breaks cycles: a block with several
predecessors is passed once. From a block with a single predecessor the way up is forced until such
a block is reached, and it passes no block twice unless it has no end; there is nothing to find on
a cycle of single predecessors. A search that ends therefore consists of at most as many stretches
as there are blocks, and one more, each of at most as many blocks.
-/

namespace BitFlow

namespace Track

/-! ## 1. Phis and their operands -/

/-- A new phi for `x` in `b`. -/
def newPhi (b : BlockId) (x : VarId) : Track ValueId := do
  let decl ← declaration x
  let v ← Edit.appendPhi b x decl.ty
  onTables Reaching.countCreated
  nameAfter x (.value v)
  pure v

/-- The operands of the phi `v` of `x`, one for each predecessor of its block and found by `read`;
    then its removal if it is trivial. -/
def fillWith (read : BlockId → Track Operand) (v : ValueId) : Track Operand := do
  match (← Edit.value v).block with
  | none => throw (.violated (.fillingDetached v))
  | some b =>
      let block ← Edit.block b
      onTables fun r => { r with filling := v :: r.filling }
      block.preds.forM fun p => do
        let o ← read p
        Edit.pushIncoming v o p
      onTables fun r => { r with filling := r.filling.filter (· ≠ v) }
      removeTrivial v

/-! ## 2. Reading -/

/-- What `x` holds at the end of `b`, where `b` records nothing and `read` answers for its
    predecessors. -/
def readThrough (read : BlockId → Track Operand) (x : VarId) (b : BlockId) : Track Operand := do
  let decl ← declaration x
  let block ← Edit.block b
  if block.isSealed then
    match block.preds with
    | [] => pure (.undef decl.ty)
    | [p] => read p
    | _ =>
        let v ← newPhi b x
        onTables (·.record x b (.value v))
        fillWith read v
  else
    let v ← newPhi b x
    onTables fun r => { r with pending := r.pending.add b (x, v) }
    pure (.value v)

/-- What `x` holds at the end of `b`, looked for through at most `n` blocks. -/
def readWithin : Nat → VarId → BlockId → Track Operand
  | n, x, b => do
      match (← get).reaching.definition? x b with
      | some o => Edit.resolve o
      | none =>
          match n with
          | 0 => throw .endless
          | n + 1 =>
              let o ← readThrough (readWithin n x) x b
              let o ← Edit.resolve o
              onTables (·.record x b o)
              pure o

/-- What `x` holds at the end of `b`. -/
def read (x : VarId) (b : BlockId) : Track Operand := do
  let n := (← get).graph.blocks.size + 1
  readWithin (n * n) x b

/-- The operands of the phi `v`, taken from the variable `x`. -/
def fill (x : VarId) (v : ValueId) : Track Operand := fillWith (read x) v

/-! ## 3. Sealing -/

/-- The operands of waiting phis, one phi after the other; each leaves the waiting list first. -/
def fillPending (b : BlockId) : List (VarId × ValueId) → Track Unit
  | [] => pure ()
  | (x, v) :: rest => do
      onTables fun r => { r with pending := r.pending.remove b (x, v) }
      discard (fill x v)
      onTables Reaching.countCompleted
      fillPending b rest

/-- The block `b` has all its predecessors now: its waiting phis get their operands, in the order
    of their variables. -/
def sealBlock (b : BlockId) : Track Unit := do
  if (← Edit.block b).isSealed then
    throw (.violated (.sealedTwice b))
  fillPending b ((← get).reaching.pending.image b)
  Edit.updateBlock b fun x => { x with isSealed := true }

end Track

end BitFlow
