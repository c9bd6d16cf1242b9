import BitFlow.Lower.Program
import BitFlow.Proofs.Action.Storing

/-!
# Properties of whole lowerings

Control flow adds few parts to those of plain statements: blocks and edges are made, blocks are
changed and sealed, and a lowering keeps its own books, the open loops and the next label. What all
these parts have and sequences inherit, every lowering has, whatever its statements.

Main statements: `Pervasive.lowerStmts`, `Pervasive.program` -- the property holds of the lowering
of statements and of programs.
-/

namespace BitFlow

namespace Lower

/-! ## 1. The parts -/

/-- **A property of actions that sequences inherit and that the parts have** of which lowerings are
    made. A look at the state is such a part if what follows it does not depend on names. -/
structure Pervasive (P : (α : Type) → Lower α → Prop) : Prop extends Storing P where
  observe : ∀ {α : Type} {f : Lowering → Lower α}, (∀ l, f l.unnamed = f l) → (∀ l, P α (f l)) →
    P α (get >>= f)
  sealBlock : ∀ b, P Unit (tracking (Track.sealBlock b))
  addBlock : ∀ label kind, P BlockId (editing (Edit.addBlock label kind))
  addEdge : ∀ b cond c, P Unit (editing (Edit.addEdge b cond c))
  updateBlock : ∀ b f, P Unit (editing (Edit.updateBlock b f))
  setExit : ∀ b, P PUnit (editing (modify fun g => { g with exit := some b }))
  /-- The open loops and the next label. -/
  books : ∀ (f : List LoopFrame → List LoopFrame) (n : Nat → Nat),
    P PUnit (modify fun l => { l with loops := f l.loops, nextLabel := n l.nextLabel })

namespace Pervasive

variable {P : (α : Type) → Lower α → Prop} (h : Pervasive P) {α : Type}

include h

/-! ## 2. Blocks -/

/-- A look at a block, whatever follows it. -/
theorem block_bind {b : BlockId} {f : Block → Lower α} (hf : ∀ y, P α (f y)) :
    P α ((liftM (Edit.block b) : Lower Block) >>= f) := by
  rw [liftM_edit, block_bind_eq]
  refine h.observe (fun _ => rfl) fun l => ?_
  split
  · exact hf _
  · exact h.throw _

omit h in
theorem edit {x : Edit α} (hx : P α (editing x)) : P α (liftM x : Lower α) := by
  rw [liftM_edit]
  exact hx

theorem edge (b : BlockId) (cond : Option Operand) (c : BlockId) :
    P Unit (liftM (Edit.addEdge b cond c) : Lower Unit) := edit (h.addEdge b cond c)

theorem freshLabel (construct : String) : P String (Lower.freshLabel construct) :=
  h.observe (fun _ => rfl) fun l =>
    h.bind (h.books id fun _ => l.nextLabel + 1) fun _ => h.pure _

theorem newBlock (label : String) (parent : BlockId) : P BlockId (Lower.newBlock label parent) :=
  h.block_bind fun _ => edit (h.addBlock label _)

theorem deadBlock : P BlockId Lower.deadBlock :=
  h.bind (h.freshLabel "dead") fun label => h.bind (edit (h.addBlock label .unreachable)) fun b =>
    h.bind (h.sealBlock b) fun _ => h.pure b

/-! ## 3. Jumps and conditionals -/

theorem popLoop (label : String) : P LoopFrame (Lower.popLoop label) := by
  refine h.observe (fun _ => rfl) fun l => ?_
  split
  · exact h.bind (h.books (fun _ => _) id) fun _ => h.pure _
  · exact h.throw _

theorem addBreak (b : BlockId) : P PUnit (Lower.addBreak b) := by
  let leave : List LoopFrame → List LoopFrame :=
    List.modifyHead fun f => { f with breaks := f.breaks ++ [b] }
  have hbooks : Lower.addBreak b = modify fun l => { l with loops := leave l.loops } := by
    unfold Lower.addBreak
    congr 1
    funext l
    obtain ⟨bench, loops, n⟩ := l
    cases loops <;> rfl
  rw [hbooks]
  exact h.books leave id

theorem breakLoop (b : BlockId) : P BlockId (Lower.breakLoop b) := by
  refine h.block_bind fun y => h.observe (fun _ => rfl) fun l => ?_
  dsimp only
  split
  · exact h.throw _
  split
  · exact h.bind (h.addBreak b) fun _ => h.deadBlock
  · exact h.deadBlock

section Bodies

variable {advance body : BlockId → Lower BlockId} (hadvance : ∀ b, P BlockId (advance b))
  (hbody : ∀ b, P BlockId (body b))

include hadvance in
theorem continueLoop (b : BlockId) : P BlockId (Lower.continueLoop advance b) := by
  refine h.observe (fun _ => rfl) fun l => ?_
  split
  · exact h.throw _
  · exact h.bind (hadvance b) fun last => h.bind (h.edge last none _) fun _ => h.deadBlock

include hbody in
theorem arm (label : String) (b join : BlockId) (cond : Option Operand) (isEmpty : Bool) :
    P Unit (Lower.arm label b join cond isEmpty body) := by
  unfold Lower.arm
  split
  · exact h.edge b cond join
  · exact h.bind (h.newBlock label b) fun first => h.bind (h.edge b cond first) fun _ =>
      h.bind (h.sealBlock first) fun _ => h.bind (hbody first) fun last => h.edge last none join

theorem sealJoin (join : BlockId) : P Unit (Lower.sealJoin join) := by
  refine h.block_bind fun y => ?_
  split
  · exact h.bind (edit (h.updateBlock join _)) fun _ => h.sealBlock join
  · exact h.sealBlock join

/-! ## 4. Loops -/

theorem loopTest (label : String) (cond : Expr) (known : Option Bool) (head first : BlockId) :
    P (Option BlockId) (Lower.loopTest label cond known head first) := by
  unfold Lower.loopTest
  split
  · exact h.bind (h.edge head none first) fun _ => h.pure none
  · exact h.bind (h.newBlock _ head) fun exit => h.bind (h.enter head) fun _ =>
      h.bind (h.lowerCondition cond) fun c => h.bind (h.edge head (some c) first) fun _ =>
        h.bind (h.edge head none exit) fun _ => h.pure (some exit)

theorem joinBreaks (exit : BlockId) (breaks : List BlockId) :
    P Unit (Lower.joinBreaks exit breaks) := by
  induction breaks with
  | nil => exact h.pure _
  | cons b breaks ih => exact h.bind (h.edge b none exit) fun _ => ih

theorem loopExit (f : LoopFrame) (exit? : Option BlockId) :
    P BlockId (Lower.loopExit f exit?) := by
  cases exit? with
  | some exit =>
    exact h.bind (h.joinBreaks exit f.breaks) fun _ => h.bind (h.sealBlock f.head) fun _ =>
      h.pure exit
  | none =>
    refine h.bind (h.sealBlock f.head) fun _ => ?_
    split
    · exact edit (h.addBlock _ _)
    · exact h.bind (h.newBlock _ f.head) fun exit =>
        h.bind (h.joinBreaks exit f.breaks) fun _ => h.pure exit

include hadvance hbody in
theorem loop (construct : String) (cond : Expr) (step : List Stmt) (b : BlockId) :
    P BlockId (Lower.loop construct cond step body advance b) := by
  refine h.bind (h.knownCondition cond) fun known => ?_
  split
  · exact h.pure b
  refine h.bind (h.freshLabel construct) fun label => ?_
  refine h.bind (h.newBlock _ b) fun head => h.bind (h.newBlock _ head) fun first => ?_
  refine h.bind (h.edge b none head) fun _ => ?_
  refine h.bind (h.loopTest label cond known head first) fun exit? => ?_
  refine h.bind (h.sealBlock first) fun _ => ?_
  refine h.bind (h.books (⟨label, head, [], step⟩ :: ·) id) fun _ => ?_
  refine h.bind (hbody first) fun last => h.bind (hadvance last) fun last => ?_
  refine h.bind (h.popLoop label) fun f => h.bind (h.edge last none head) fun _ => ?_
  exact h.bind (h.loopExit f exit?) fun exit => h.bind (h.sealBlock exit) fun _ => h.pure exit

end Bodies

/-! ## 5. All statements -/

mutual

/-- **Lowering a statement.** -/
theorem lowerStmt (p : Program) {advance : BlockId → Lower BlockId}
    (hadvance : ∀ b, P BlockId (advance b)) (s : Stmt) (b : BlockId) :
    P BlockId (Lower.lowerStmt p advance s b) := by
  match s with
  | .assign x ss e =>
    rw [Lower.lowerStmt]
    exact h.assign x ss e b
  | .read q x =>
    rw [Lower.lowerStmt]
    exact h.portRead p q x b
  | .write q e =>
    rw [Lower.lowerStmt]
    exact h.portWrite p q e b
  | .branch arms otherwise =>
    rw [Lower.lowerStmt]
    refine h.bind (h.freshLabel "if") fun label => h.bind (h.newBlock _ b) fun join => ?_
    refine h.bind (lowerArms p hadvance label b join 0 arms) fun closed => ?_
    have hjoin : P BlockId (do
        Lower.sealJoin join
        Pure.pure join) := h.bind (h.sealJoin join) fun _ => h.pure join
    dsimp only
    split
    · exact h.bind (h.arm (lowerStmts p hadvance otherwise) _ b join none _) fun _ => hjoin
    · exact hjoin
  | .whileLoop cond body =>
    rw [Lower.lowerStmt]
    exact h.loop (fun _ => h.pure _) (lowerStmts p (fun _ => h.pure _) body) "while" cond [] b
  | .forLoop init cond step body =>
    rw [Lower.lowerStmt]
    have hstep : ∀ c, P BlockId (Lower.lowerStmts p Pure.pure step c) :=
      lowerStmts p (fun c => h.pure c) step
    exact h.bind (lowerStmts p hadvance init b) fun start =>
      h.loop hstep (lowerStmts p hstep body) "for" cond step start
  | .breakLoop =>
    rw [Lower.lowerStmt]
    exact h.breakLoop b
  | .continueLoop =>
    rw [Lower.lowerStmt]
    exact h.continueLoop hadvance b

/-- **Lowering statements.** -/
theorem lowerStmts (p : Program) {advance : BlockId → Lower BlockId}
    (hadvance : ∀ b, P BlockId (advance b)) (ss : List Stmt) (b : BlockId) :
    P BlockId (Lower.lowerStmts p advance ss b) := by
  match ss with
  | [] =>
    rw [Lower.lowerStmts]
    exact h.pure b
  | s :: ss =>
    rw [Lower.lowerStmts]
    exact h.bind (lowerStmt p hadvance s b) fun next => lowerStmts p hadvance ss next

theorem lowerArms (p : Program) {advance : BlockId → Lower BlockId}
    (hadvance : ∀ b, P BlockId (advance b)) (label : String) (b join : BlockId) (i : Nat)
    (arms : List (Expr × List Stmt)) :
    P Bool (Lower.lowerArms p advance label b join i arms) := by
  match arms with
  | [] =>
    rw [Lower.lowerArms]
    exact h.pure false
  | (cond, body) :: rest =>
    have hrest := lowerArms p hadvance label b join (i + 1) rest
    have harm : ∀ test, P Unit (Lower.arm (label ++ ".arm" ++ toString i) b join test body.isEmpty
        (Lower.lowerStmts p advance body)) :=
      fun test => h.arm (lowerStmts p hadvance body) _ b join test _
    rw [Lower.lowerArms]
    refine h.bind (h.knownCondition cond) fun known => ?_
    split
    · exact hrest
    · split
      · exact h.bind (h.pure none) fun test => h.bind (harm test) fun _ => h.pure true
      · exact h.bind (h.enter b) fun _ => h.bind (h.lowerCondition cond) fun c =>
          h.bind (h.pure (some c)) fun test => h.bind (harm test) fun _ => hrest

end

/-- **Lowering the body of a program.** -/
theorem program (p : Program) : P BlockId (Lower.program p) := by
  have hinner : ∀ (fs : List LoopFrame) (b : BlockId),
      P BlockId (innermostAdvance p fs b) := by
    intro fs b
    cases fs with
    | nil => exact h.pure b
    | cons f fs => exact h.lowerStmts p (fun c => h.pure c) f.step b
  have hbody : ∀ entry, P BlockId (do
      let exit ← Lower.lowerStmts p (innermostAdvance p (← get).loops) p.body entry
      Build.onGraph (modify fun g => { g with exit := some exit })
      Pure.pure exit) := fun entry =>
    h.observe (fun _ => rfl) fun l =>
      h.bind (h.lowerStmts p (hinner l.loops) p.body entry) fun exit =>
        h.bind (h.setExit exit) fun _ => h.pure exit
  refine h.observe (fun _ => rfl) fun l => h.block_bind fun y => ?_
  split
  · exact h.bind (h.sealBlock _) fun _ => hbody _
  · exact hbody _

end Pervasive

end Lower

end BitFlow
