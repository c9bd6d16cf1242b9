import BitFlow.Lower.Basic

/-!
# Lowering statements

A statement is lowered at the end of a block; the answer is the block in which the next statement
continues.

* A conditional tests its arms in the given block, branches to a block per arm, and joins them in a
  block that is sealed last. An arm whose condition is known to be false is left out, and one known
  to be true is the last.
* A loop has a block for its condition, one for its body and one behind it. The block of the
  condition is sealed when the body has been lowered, because the edge back is known only then.
* The code after `break` and `continue` goes to a block that nothing reaches.

`continue` lowers the step of the innermost loop once more before it jumps. The lowering is
therefore given the action `advance`, which lowers that step; inside the step itself there is
nothing to advance, so the recursion is on the statements alone.
-/

namespace BitFlow

namespace Lower

/-! ## 1. Statements without control flow -/

/-- The constant range that a selector addresses in a variable of `width` bits. -/
def selectedRange (s : Selector) (width : Nat) (site : String) : Lower BitRange := do
  let r ←
    match s with
    | .bit pos =>
        match pos.position? with
        | some k => pure (⟨k, k⟩ : BitRange)
        | none => throw (.unsupported .variableIndex site)
    | .range msb lsb => do
        let hi ← Build.bound msb site
        let lo ← Build.bound lsb site
        pure ⟨hi, lo⟩
  if r.Within width then pure r
  else throw (.outOfRange r.msb r.lsb width site)

/-- The ranges that an assignment to a variable of `width` bits addresses: none, or one. -/
def selectedRanges (ss : List Selector) (width : Nat) (site : String) :
    Lower (List BitRange) := do
  match ss with
  | [] => pure []
  | [s] => return [← selectedRange s width site]
  | _ => throw (.unsupported .severalIndices site)

/-- The type of what is stored into `ranges` of a variable of type `ty`. -/
def storeType (ty : Ty) : List BitRange → Ty
  | [] => ty
  | r :: _ => .unsigned r.width

/-- An assignment at the end of `b`. -/
def assign (x : VarId) (ss : List Selector) (e : Expr) (b : BlockId) : Lower BlockId := do
  enter b
  let decl ← Track.declaration x
  let site := "assignment to " ++ decl.name
  if decl.isArray then
    throw (.unsupported (.arrayAssigned decl.name) site)
  let ranges ← selectedRanges ss decl.ty.width site
  let o ← Build.lowerExpr e
  let o ← Emit.coerceTo o (storeType decl.ty ranges) site
  discard (Build.write x ranges b o)
  pure b

/-- The declaration of a port that admits `access`, or a fault. -/
def portFor (p : Program) (q : PortId) (access : Access) (site : String) : Lower Port := do
  match p.portAt? q with
  | none => throw (.unknownPort q)
  | some port =>
      match port.direction, access with
      | .input, .read => pure port
      | .output, .write => pure port
      | _, _ => throw (.wrongDirection q access site)

/-- A read of a port into `x` at the end of `b`. -/
def portRead (p : Program) (q : PortId) (x : VarId) (b : BlockId) : Lower BlockId := do
  enter b
  let decl ← Track.declaration x
  let site := "read of " ++ q.text ++ " into " ++ decl.name
  let port ← portFor p q .read site
  if decl.isArray then
    throw (.unsupported (.arrayRead decl.name) site)
  let o ← Emit.portRead port.id port.ty
  let o ← Emit.coerceTo o decl.ty site
  discard (Build.write x [] b o)
  pure b

/-- A write to a port at the end of `b`. -/
def portWrite (p : Program) (q : PortId) (e : Expr) (b : BlockId) : Lower BlockId := do
  enter b
  let site := "write to " ++ q.text
  let port ← portFor p q .write site
  let o ← Build.lowerExpr e
  let o ← Emit.coerceTo o port.ty site
  discard (Emit.portWrite port.id o)
  pure b

/-! ## 2. Jumps -/

/-- Out of the innermost loop. -/
def breakLoop (b : BlockId) : Lower BlockId := do
  let block ← Edit.block b
  if (← get).loops.isEmpty then
    throw (.unsupported .breakOutside "break")
  if !block.isUnreachable then
    addBreak b
  deadBlock

/-- On to the next round of the innermost loop, through its step. -/
def continueLoop (advance : BlockId → Lower BlockId) (b : BlockId) : Lower BlockId := do
  match (← get).loops with
  | [] => throw (.unsupported .continueOutside "continue")
  | f :: _ =>
      let last ← advance b
      Edit.addEdge last none f.head
      deadBlock

/-! ## 3. Conditionals -/

/-- An arm of a conditional in `b` that joins at `join`: an edge to the join for an empty body, else
    a block of its own, in which `body` is lowered. -/
def arm (label : String) (b join : BlockId) (cond : Option Operand) (isEmpty : Bool)
    (body : BlockId → Lower BlockId) : Lower Unit := do
  if isEmpty then
    Edit.addEdge b cond join
  else
    let first ← newBlock label b
    Edit.addEdge b cond first
    Track.sealBlock first
    let last ← body first
    Edit.addEdge last none join

/-- The join of a conditional, once all arms are lowered; if none leads there, nothing reaches
    it. -/
def sealJoin (join : BlockId) : Lower Unit := do
  if (← Edit.block join).preds.isEmpty then
    Edit.updateBlock join fun x => { x with kind := .unreachable }
  Track.sealBlock join

/-! ## 4. Loops -/

/-- The edges of a loop's condition block: on to the body, and behind the loop unless the condition
    is known to hold. The answer is the block behind the loop, if it has been made. -/
def loopTest (label : String) (cond : Expr) (known : Option Bool) (head body : BlockId) :
    Lower (Option BlockId) := do
  if known = some true then
    Edit.addEdge head none body
    pure none
  else
    let exit ← newBlock (label ++ ".exit") head
    enter head
    let c ← Build.lowerCondition cond
    Edit.addEdge head (some c) body
    Edit.addEdge head none exit
    pure (some exit)

/-- The edges from the places that leave a loop to the block behind it. -/
def joinBreaks (exit : BlockId) (breaks : List BlockId) : Lower Unit :=
  breaks.forM fun b => Edit.addEdge b none exit

/-- The block behind a loop whose body is lowered. A loop that is left by `break` alone gets it only
    now; one that is never left has code behind it that nothing reaches. -/
def loopExit (f : LoopFrame) : Option BlockId → Lower BlockId
  | some exit => do
      joinBreaks exit f.breaks
      Track.sealBlock f.head
      pure exit
  | none => do
      Track.sealBlock f.head
      if f.breaks.isEmpty then
        Edit.addBlock (f.label ++ ".exit") .unreachable
      else
        let exit ← newBlock (f.label ++ ".exit") f.head
        joinBreaks exit f.breaks
        pure exit

/-- A loop at the end of `b`. `body` lowers its body, and `advance` its step. -/
def loop (construct : String) (cond : Expr) (step : List Stmt)
    (body advance : BlockId → Lower BlockId) (b : BlockId) : Lower BlockId := do
  let known ← Build.knownCondition cond
  if known = some false then
    return b
  let label ← freshLabel construct
  let head ← newBlock (label ++ ".cond") b
  let first ← newBlock (label ++ ".body") head
  Edit.addEdge b none head
  let exit? ← loopTest label cond known head first
  Track.sealBlock first
  pushLoop ⟨label, head, [], step⟩
  let last ← body first
  let last ← advance last
  let f ← popLoop label
  Edit.addEdge last none head
  let exit ← loopExit f exit?
  Track.sealBlock exit
  pure exit

/-! ## 5. All statements -/

mutual

/-- A statement at the end of `b`. -/
def lowerStmt (p : Program) (advance : BlockId → Lower BlockId) (s : Stmt) (b : BlockId) :
    Lower BlockId :=
  match s with
  | .assign x ss e => assign x ss e b
  | .read q x => portRead p q x b
  | .write q e => portWrite p q e b
  | .branch arms otherwise => do
      let label ← freshLabel "if"
      let join ← newBlock (label ++ ".end") b
      let closed ← lowerArms p advance label b join 0 arms
      if !closed then
        arm (label ++ ".else") b join none otherwise.isEmpty (lowerStmts p advance otherwise)
      sealJoin join
      pure join
  | .whileLoop cond body => loop "while" cond [] (lowerStmts p pure body) pure b
  | .forLoop init cond step body => do
      let start ← lowerStmts p advance init b
      let between := lowerStmts p pure step
      loop "for" cond step (lowerStmts p between body) between start
  | .breakLoop => breakLoop b
  | .continueLoop => continueLoop advance b
termination_by structural s

/-- Statements one after the other, the first at the end of `b`. -/
def lowerStmts (p : Program) (advance : BlockId → Lower BlockId) (ss : List Stmt) (b : BlockId) :
    Lower BlockId :=
  match ss with
  | [] => pure b
  | s :: ss => do
      let next ← lowerStmt p advance s b
      lowerStmts p advance ss next
termination_by structural ss

/-- The arms of a conditional in `b`, numbered from `i`; whether one of them is always taken if the
    earlier ones are not. -/
def lowerArms (p : Program) (advance : BlockId → Lower BlockId) (label : String)
    (b join : BlockId) (i : Nat) (arms : List (Expr × List Stmt)) : Lower Bool :=
  match arms with
  | [] => pure false
  | (cond, body) :: rest => do
      let known ← Build.knownCondition cond
      if known = some false then
        lowerArms p advance label b join (i + 1) rest
      else
        let test ←
          if known = some true then pure none
          else do
            enter b
            let c ← Build.lowerCondition cond
            pure (some c)
        arm (label ++ ".arm" ++ toString i) b join test body.isEmpty (lowerStmts p advance body)
        if known = some true then pure true
        else lowerArms p advance label b join (i + 1) rest
termination_by structural arms

end

end Lower

end BitFlow
