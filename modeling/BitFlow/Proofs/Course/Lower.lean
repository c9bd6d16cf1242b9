import BitFlow.Proofs.Bench
import BitFlow.Proofs.Course.Read
import BitFlow.Proofs.Emit.Overflow

/-!
# Lowering without a bound

The text of the lowering as a course for every depth: nothing else bounds how often it recurs. The
step of a loop stands in the frame of the loop, and whoever needs it lowers it from there; a
`continue` in the step finds the frame without a step. No part of the program becomes smaller in
that, and whether some depth is enough is not said by the text.

Before each operation graph and tables are noted, and whether its arithmetic overflows. A program
that is built to check its arithmetic goes the same way up to the first operation that does, and
stops there, with no result at all.

`Program.lowerFreely` is the outcome of the whole course at a depth, `Program.lowerChecked` what
becomes of it where arithmetic is checked, and `Program.journal` lists the states that were noted.
-/

namespace BitFlow

/-! ## 1. Watched lowerings -/

/-- What is noted of an operation: graph and tables before it, and whether its arithmetic
    overflows. -/
structure Note where
  state : Tracked
  overflows : Bool

/-- A lowering that is watched: where it stands, and the notes of its operations, the last one
    first. -/
structure Watched where
  now : Lowering
  past : List Note

/-- A course on a watched lowering. -/
abbrev Watch := Course Watched

namespace Watch

variable {α : Type}

/-- The lowering with other graph and tables. -/
def retrack (l : Lowering) (t : Tracked) : Lowering := { l with bench := l.bench.retrack t }

/-- The state after an operation, which has been noted. -/
def noted (w : Watched) (overflows : Bool) (l : Lowering) : Watched :=
  ⟨l, ⟨w.now.tracked, overflows⟩ :: w.past⟩

/-- An operation whose arithmetic overflows where `test` says so. -/
def opWith (test : Lowering → Bool) (x : Lower α) : Watch α := fun w =>
  match x.run w.now with
  | .ok a l => some (.ok a, noted w (test w.now) l)
  | .error e l => some (.error e, noted w (test w.now) l)

/-- An operation that never overflows. -/
def op (x : Lower α) : Watch α := opWith (fun _ => false) x

/-- A look at the lowering. -/
def look : Watch Lowering := op get

/-- An operation on the bench that computes with literals. -/
def compute (test : Graph → Bool) (x : Build α) : Watch α :=
  opWith (fun l => test l.bench.graph) (liftM x)

/-- An operation on the bench that never overflows. -/
def build (x : Build α) : Watch α := compute (fun _ => false) x

/-- An operation on graph and tables that may be cut off. -/
def track (c : Course Tracked α) : Watch α := fun w =>
  match c.outcome w.now.tracked with
  | none => none
  | some (.ok a t) => some (.ok a, noted w false (retrack w.now t))
  | some (.error e t) => some (.error e, noted w false (retrack w.now t))

/-- Two operands brought to one type. -/
def coerce (a b : Operand) (site : String) : Watch (Operand × Operand) :=
  compute (Emit.coerceOverflows · a b) (Emit.coerce a b site)

/-- An operand brought to the type of its place. -/
def coerceTo (o : Operand) (ty : Ty) (site : String) : Watch Operand :=
  compute (fun _ => Emit.coerceToOverflows o ty) (Emit.coerceTo o ty site)

/-- An operand as a truth value. -/
def condition (o : Operand) (site : String) : Watch Operand :=
  compute (fun _ => Emit.conditionOverflows o) (Emit.condition o site)

/-- A slice of an operand. -/
def slice (a : Operand) (msb lsb : Nat) (site : String) : Watch Operand :=
  compute (fun _ => Emit.sliceOverflows a msb lsb) (Emit.slice a msb lsb site)

/-- An operand under another type. -/
def cast (a : Operand) (ty : Ty) (site : String) : Watch Operand :=
  compute (fun _ => Emit.castOverflows a ty) (Emit.cast a ty site)

/-! ## 2. Expressions and writes -/

/-- The content of a variable at the cursor. -/
def variableRead (n : Nat) (x : VarId) (site : String) : Watch Operand := do
  let decl ← build (Track.declaration x)
  if decl.isArray then
    throw (.unsupported (.arrayAsValue decl.name) site)
  track (Course.read n x (← get).now.bench.cursor.block)

/-- The two operands of a binary operator at the types that it asks for. -/
def align (o : Binary) (a b : Operand) (site : String) : Watch (Operand × Operand) :=
  if o.isShift then pure (a, b) else coerce a b site

mutual

/-- The operand that holds the value of an expression. -/
def lowerExpr (n : Nat) (e : Expr) : Watch Operand := do
  match e with
  | .lit c =>
      -- the site of a literal holds its text
      compute (fun _ => c.resizeOverflows) (Build.literal c e.describe)
  | .var x => variableRead n x e.describe
  | .unary o arg => do
      let a ← lowerExpr n arg
      build (Emit.unary (.unary o) a e.describe)
  | .binary o lhs rhs => do
      let a ← lowerExpr n lhs
      let b ← lowerExpr n rhs
      let (a, b) ← align o a b e.describe
      compute (fun _ => Emit.binaryOverflows o a b) (Emit.binary (.binary o) a b e.describe)
  | .compare o lhs rhs => do
      let a ← lowerExpr n lhs
      let b ← lowerExpr n rhs
      let (a, b) ← coerce a b e.describe
      compute (fun _ => Emit.comparisonOverflows o a b) (Emit.compare (.compare o) a b e.describe)
  | .concat parts => do
      let ops ← lowerExprs n parts
      build (Emit.concat ops e.describe)
  | .bit base pos => do
      build (Build.refuseArrayBase base e.describe)
      let a ← lowerExpr n base
      let k ← lowerExpr n pos
      compute (fun _ => Emit.indexOverflows a k) (Emit.index a k e.describe)
  | .range base msb lsb => do
      build (Build.refuseArrayBase base e.describe)
      let a ← lowerExpr n base
      let hi ← build (Build.bound msb e.describe)
      let lo ← build (Build.bound lsb e.describe)
      slice a hi lo e.describe
  | .ternary cond yes no => do
      let c ← lowerExpr n cond
      let c ← condition c e.describe
      let a ← lowerExpr n yes
      let b ← lowerExpr n no
      let (a, b) ← coerce a b e.describe
      build (Emit.select c a b e.describe)
  | .cast arg ty => do
      let a ← lowerExpr n arg
      cast a ty e.describe
termination_by structural e

/-- The operands that hold the values of some expressions, from left to right. -/
def lowerExprs (n : Nat) (es : List Expr) : Watch (List Operand) := do
  match es with
  | [] => pure []
  | e :: es => do
      let o ← lowerExpr n e
      let os ← lowerExprs n es
      pure (o :: os)
termination_by structural es

end

/-- The truth value of an expression. -/
def lowerCondition (n : Nat) (e : Expr) : Watch Operand := do
  let o ← lowerExpr n e
  condition o e.describe

/-- The content of a whole variable of which the bits of `r` are replaced by `o`. -/
def splice (n : Nat) (decl : Variable) (r : BitRange) (b : BlockId) (o : Operand)
    (site : String) : Watch Operand := do
  if decl.isArray then
    throw (.unsupported .arrayPart site)
  let width := decl.ty.width
  if ¬ r.Within width then
    throw (.outOfRange r.msb r.lsb width site)
  let found ← build (Edit.operandType o)
  if found.width ≠ r.width then
    throw (.typeMismatch (.width r.width) (some found) site)
  let cursor := (← get).now.bench.cursor
  if cursor.block ≠ b then
    throw (.violated (.cursorElsewhere decl.name b cursor.block))
  let old ← track (Course.read n decl.id b)
  let above ←
    if r.msb + 1 < width then
      pure [← slice old (width - 1) (r.msb + 1) site]
    else pure []
  let below ←
    if 0 < r.lsb then
      pure [← slice old (r.lsb - 1) 0 site]
    else pure []
  let joined ← build (Emit.concat (above ++ o :: below) site)
  let whole ← cast joined decl.ty site
  build (Build.markPartial decl.id whole)
  pure whole

/-- The new content of `x` at the end of `b`. -/
def write (n : Nat) (x : VarId) (ranges : List BitRange) (b : BlockId) (o : Operand) :
    Watch Operand := do
  let decl ← build (Track.declaration x)
  let site := "write of " ++ decl.name
  let whole ←
    match ranges with
    | [] => do
        let found ← build (Edit.operandType o)
        if found = decl.ty then pure o
        else throw (.typeMismatch (.type decl.ty) (some found) site)
    | [r] => splice n decl r b o site
    | _ => throw (.unsupported .severalIndices site)
  build do
    Track.onTables (·.record x b whole)
    Track.nameAfter x whole
    pure whole

/-! ## 3. Statements without control flow -/

/-- An assignment at the end of `b`. -/
def assign (n : Nat) (x : VarId) (ss : List Selector) (e : Expr) (b : BlockId) :
    Watch BlockId := do
  op (Lower.enter b)
  let decl ← build (Track.declaration x)
  let site := "assignment to " ++ decl.name
  if decl.isArray then
    throw (.unsupported (.arrayAssigned decl.name) site)
  let ranges ← op (Lower.selectedRanges ss decl.ty.width site)
  let o ← lowerExpr n e
  let o ← coerceTo o (Lower.storeType decl.ty ranges) site
  discard (write n x ranges b o)
  pure b

/-- A read of a port into `x` at the end of `b`. -/
def portRead (n : Nat) (p : Program) (q : PortId) (x : VarId) (b : BlockId) :
    Watch BlockId := do
  op (Lower.enter b)
  let decl ← build (Track.declaration x)
  let site := "read of " ++ q.text ++ " into " ++ decl.name
  let port ← op (Lower.portFor p q .read site)
  if decl.isArray then
    throw (.unsupported (.arrayRead decl.name) site)
  let o ← build (Emit.portRead port.id port.ty)
  let o ← coerceTo o decl.ty site
  discard (write n x [] b o)
  pure b

/-- A write to a port at the end of `b`. -/
def portWrite (n : Nat) (p : Program) (q : PortId) (e : Expr) (b : BlockId) :
    Watch BlockId := do
  op (Lower.enter b)
  let site := "write to " ++ q.text
  let port ← op (Lower.portFor p q .write site)
  let o ← lowerExpr n e
  let o ← coerceTo o port.ty site
  discard (build (Emit.portWrite port.id o))
  pure b

/-! ## 4. Blocks, jumps and joins -/

/-- A new sealed block that nothing reaches, for the code after a jump. -/
def deadBlock (n : Nat) : Watch BlockId := do
  let label ← op (Lower.freshLabel "dead")
  let b ← build (Edit.addBlock label .unreachable)
  track (Course.sealBlock n b)
  pure b

/-- Out of the innermost loop. -/
def breakLoop (n : Nat) (b : BlockId) : Watch BlockId := do
  let block ← build (Edit.block b)
  if (← get).now.loops.isEmpty then
    throw (.unsupported .breakOutside "break")
  if !block.isUnreachable then
    op (Lower.addBreak b)
  deadBlock n

/-- The join of a conditional, once all arms are lowered. -/
def sealJoin (n : Nat) (join : BlockId) : Watch Unit := do
  if (← build (Edit.block join)).preds.isEmpty then
    build (Edit.updateBlock join fun x => { x with kind := .unreachable })
  track (Course.sealBlock n join)

/-- The edges of a loop's condition block. -/
def loopTest (n : Nat) (label : String) (cond : Expr) (known : Option Bool)
    (head body : BlockId) : Watch (Option BlockId) := do
  if known = some true then
    build (Edit.addEdge head none body)
    pure none
  else
    let exit ← op (Lower.newBlock (label ++ ".exit") head)
    op (Lower.enter head)
    let c ← lowerCondition n cond
    build (Edit.addEdge head (some c) body)
    build (Edit.addEdge head none exit)
    pure (some exit)

/-- The edges from the places that leave a loop to the block behind it. -/
def joinBreaks (exit : BlockId) (breaks : List BlockId) : Watch Unit :=
  breaks.forM fun b => build (Edit.addEdge b none exit)

/-- The block behind a loop whose body is lowered. -/
def loopExit (n : Nat) (f : LoopFrame) : Option BlockId → Watch BlockId
  | some exit => do
      joinBreaks exit f.breaks
      track (Course.sealBlock n f.head)
      pure exit
  | none => do
      track (Course.sealBlock n f.head)
      if f.breaks.isEmpty then
        build (Edit.addBlock (f.label ++ ".exit") .unreachable)
      else
        let exit ← op (Lower.newBlock (f.label ++ ".exit") f.head)
        joinBreaks exit f.breaks
        pure exit

/-- The step of the innermost loop is taken out of its frame, or put back. -/
def setStep (step : List Stmt) : Lower Unit :=
  modify fun l =>
    match l.loops with
    | f :: rest => { l with loops := { f with step := step } :: rest }
    | [] => l

/-! ## 5. All statements -/

mutual

/-- A statement at the end of `b`. -/
def lowerStmt (n : Nat) (p : Program) (s : Stmt) (b : BlockId) : Watch BlockId :=
  match n with
  | 0 => Course.cut
  | n + 1 => do
      match s with
      | .assign x ss e => assign n x ss e b
      | .read q x => portRead n p q x b
      | .write q e => portWrite n p q e b
      | .branch arms otherwise =>
          let label ← op (Lower.freshLabel "if")
          let join ← op (Lower.newBlock (label ++ ".end") b)
          let closed ← lowerArms n p label b join 0 arms
          if !closed then
            arm n p (label ++ ".else") b join none otherwise
          sealJoin n join
          pure join
      | .whileLoop cond body => loop n p "while" cond [] body b
      | .forLoop init cond step body =>
          let start ← lowerStmts n p init b
          loop n p "for" cond step body start
      | .breakLoop => breakLoop n b
      | .continueLoop => continueLoop n p b
termination_by structural n

/-- Statements one after the other, the first at the end of `b`. -/
def lowerStmts (n : Nat) (p : Program) (ss : List Stmt) (b : BlockId) : Watch BlockId :=
  match n with
  | 0 => Course.cut
  | n + 1 => do
      match ss with
      | [] => pure b
      | s :: ss =>
          let next ← lowerStmt n p s b
          lowerStmts n p ss next
termination_by structural n

/-- The arms of a conditional in `b`, numbered from `i`. -/
def lowerArms (n : Nat) (p : Program) (label : String) (b join : BlockId) (i : Nat)
    (arms : List (Expr × List Stmt)) : Watch Bool :=
  match n with
  | 0 => Course.cut
  | n + 1 => do
      match arms with
      | [] => pure false
      | (cond, body) :: rest =>
          let known ← build (Build.knownCondition cond)
          if known = some false then
            lowerArms n p label b join (i + 1) rest
          else
            let test ←
              if known = some true then pure none
              else do
                op (Lower.enter b)
                let c ← lowerCondition n cond
                pure (some c)
            arm n p (label ++ ".arm" ++ toString i) b join test body
            if known = some true then pure true
            else lowerArms n p label b join (i + 1) rest
termination_by structural n

/-- An arm of a conditional in `b` that joins at `join`. -/
def arm (n : Nat) (p : Program) (label : String) (b join : BlockId) (cond : Option Operand)
    (body : List Stmt) : Watch Unit :=
  match n with
  | 0 => Course.cut
  | n + 1 => do
      if body.isEmpty then
        build (Edit.addEdge b cond join)
      else
        let first ← op (Lower.newBlock label b)
        build (Edit.addEdge b cond first)
        track (Course.sealBlock n first)
        let last ← lowerStmts n p body first
        build (Edit.addEdge last none join)
termination_by structural n

/-- A loop at the end of `b`. -/
def loop (n : Nat) (p : Program) (construct : String) (cond : Expr) (step body : List Stmt)
    (b : BlockId) : Watch BlockId :=
  match n with
  | 0 => Course.cut
  | n + 1 => do
      let known ← build (Build.knownCondition cond)
      if known = some false then
        return b
      let label ← op (Lower.freshLabel construct)
      let head ← op (Lower.newBlock (label ++ ".cond") b)
      let first ← op (Lower.newBlock (label ++ ".body") head)
      build (Edit.addEdge b none head)
      let exit? ← loopTest n label cond known head first
      track (Course.sealBlock n first)
      op (Lower.pushLoop ⟨label, head, [], step⟩)
      let last ← lowerStmts n p body first
      let last ← lowerStep n p last
      let f ← op (Lower.popLoop label)
      build (Edit.addEdge last none head)
      let exit ← loopExit n f exit?
      track (Course.sealBlock n exit)
      pure exit
termination_by structural n

/-- The step of the innermost loop at the end of `b`. While it is lowered it is not in its frame. -/
def lowerStep (n : Nat) (p : Program) (b : BlockId) : Watch BlockId :=
  match n with
  | 0 => Course.cut
  | n + 1 => do
      match (← get).now.loops with
      | [] => pure b
      | f :: _ =>
          if f.step.isEmpty then
            pure b
          else
            op (setStep [])
            let last ← lowerStmts n p f.step b
            op (setStep f.step)
            pure last
termination_by structural n

/-- On to the next round of the innermost loop, through its step. -/
def continueLoop (n : Nat) (p : Program) (b : BlockId) : Watch BlockId :=
  match n with
  | 0 => Course.cut
  | n + 1 => do
      match (← look).loops with
      | [] => throw (.unsupported .continueOutside "continue")
      | f :: _ =>
          let last ← lowerStep n p b
          build (Edit.addEdge last none f.head)
          deadBlock n
termination_by structural n

end

/-- The body of a program from the entry block on. -/
def program (n : Nat) (p : Program) : Watch BlockId := do
  let entry := (← get).now.bench.graph.entry
  if !(← build (Edit.block entry)).isSealed then
    track (Course.sealBlock n entry)
  let exit ← lowerStmts n p p.body entry
  build (Build.onGraph (modify fun g => { g with exit := some exit }))
  pure exit

end Watch

/-! ## 6. Programs -/

/-- The course of a whole lowering at the depth `n`. -/
def Program.course (p : Program) (s : Settings) (n : Nat) :
    Option (EStateM.Result Fault Watched BlockId) :=
  (Watch.program n p).outcome ⟨.start p s, []⟩

/-- What comes of a whole course. -/
def Settings.conclude (s : Settings) : EStateM.Result Fault Watched BlockId → Except Fault Lowered
  | .error e _ => .error e
  | .ok _ w => do
      if s.verify then w.now.finish
      pure w.now.result

/-- The notes of a whole course. -/
def Watch.notes : EStateM.Result Fault Watched BlockId → List Note
  | .error _ w => w.past
  | .ok _ w => w.past

/-- **The lowering of a program with no bound but the depth `n`**; nothing if it recurs deeper. -/
def Program.lowerFreely (p : Program) (s : Settings) (n : Nat) : Option (Except Fault Lowered) :=
  (p.course s n).map s.conclude

/-- How a lowering ends where arithmetic is checked: with a result, or at an overflow. -/
inductive Ending where
  | returned (r : Except Fault Lowered)
  | overflowed

/-- **The lowering of a program where arithmetic is checked**, with no bound but the depth `n`. -/
def Program.lowerChecked (p : Program) (s : Settings) (n : Nat) : Option Ending :=
  (p.course s n).map fun r =>
    if (Watch.notes r).any Note.overflows then .overflowed else .returned (s.conclude r)

/-- The states between two operations of the lowering of a program at the depth `n`, with the last
    one if it comes to an answer. -/
def Program.journal (p : Program) (s : Settings) (n : Nat) : List Tracked :=
  match p.course s n with
  | none => []
  | some (.error _ w) => w.past.map Note.state
  | some (.ok _ w) => w.now.tracked :: w.past.map Note.state

/-- **A state between two operations** of the lowering of a program: one that is met at every depth
    that is enough. -/
def Program.Meets (p : Program) (s : Settings) (t : Tracked) : Prop :=
  ∃ n, ∀ m, n ≤ m → t ∈ p.journal s m

end BitFlow
