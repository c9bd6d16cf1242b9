import BitFlow.Proofs.Build.Provision
import BitFlow.Proofs.Enclave.Graph
import BitFlow.Proofs.Move.Lower

/-!
# Lowering dead code

Statements that start at a dead block are lowered in an enclave. They end at a block of the enclave,
and the blocks that they make are all dead: one under a dead block is dead, and so are those behind
jumps. No edge leaves a dead block, so `continue` does not touch the head of the loop around, and no
`break` is noted there.

Main statement: `Enclave.closed_lowerStmts` -- statements leave everything outside alone.
-/

namespace BitFlow

namespace Enclave

variable {E : Enclave}

/-! ## 1. Expressions and writes -/

/-- Instructions are put into the enclave, and everything outside is as it was. -/
structure Works (E : Enclave) (s : Bench) : Prop where
  confines : E.Confines s.tracked
  place : E.Covers s.cursor.block

section Builds

variable {s : Bench} {o : Operand}

theorem works_put (hs : E.Works s) {ty : Ty} {origin : Origin} {i : Instr} {v : ValueId}
    {q : Pointed} (hi : ∀ o ∈ i.operands, E.Admits o)
    (hput : Put ⟨s.graph, s.cursor⟩ ty origin i v q) :
    E.Works (s.repoint q) ∧ E.Admits (.value v) := by
  obtain ⟨place, hg⟩ := hput.graph
  obtain rfl := hput.name
  refine ⟨⟨⟨?_, hs.confines.tables⟩, ?_⟩, admits_new hs.confines.graph.lacks_next⟩
  · show E.Contains q.graph
    rw [hg]
    exact hs.confines.graph.withInstr hs.place place ty origin hi
  · show E.Covers q.cursor.block
    rw [hput.cursor]
    exact hs.place

theorem secures_onTracked {α : Type} {A : α → Prop} {x : Track α} (hx : Yields E.Confines A x) :
    Secures E.Works E.Works A (liftM x : Build α) :=
  .focus (fun _ hs => hs.confines) (fun _ _ hs ht => ⟨ht, hs.place⟩) (.of_yields hx)

theorem secures_onGraph {α : Type} {A : α → Prop} {x : Edit α} (hx : Yields E.Contains A x) :
    Secures E.Works E.Works A (liftM x : Build α) := secures_onTracked (yields_edit hx)

theorem secures_markPartial (x : VarId) (ho : E.Admits o) :
    Secures E.Works E.Works (fun _ => True) (Build.markPartial x o) := by
  cases o with
  | lit c => exact .pure trivial
  | undef ty => exact .pure trivial
  | value v =>
    refine secures_onGraph (yields_updateValue (ho v rfl) fun y hy => ?_)
    split
    · exact ⟨hy.block, hy.operands⟩
    · exact hy

/-- **What is lowered in an enclave is of the enclave.** -/
theorem provision_admits (E : Enclave) :
    Provision (fun _ _ => True) E.Works fun _ o => E.Admits o where
  stop := fun _ _ => trivial
  lit := fun _ c => admits_lit c
  read := fun {s} hs x => ((secures_onTracked (yields_read x hs.place)) s hs).mono
    fun _ _ h => ⟨⟨h.1, id⟩, h.2⟩
  put := fun hs hi hput => ⟨⟨(works_put hs hi hput).1, id⟩, (works_put hs hi hput).2⟩
  mark := fun {s _} hs ho x => (secures_markPartial x ho s hs).mono fun _ _ h => ⟨h.1, id⟩

/-- What is provided at every bench. -/
theorem secures_provided {x : Build Operand}
    (hx : ∀ s, E.Works s → Ends x s (fun _ => True) (Provides E.Works (fun _ => E.Admits) s)) :
    Secures E.Works E.Works E.Admits x :=
  fun s hs => (hx s hs).mono fun _ _ h => ⟨h.state, h.answer⟩

theorem secures_write (x : VarId) (ranges : List BitRange) {b : BlockId} (hb : E.Covers b)
    (ho : E.Admits o) :
    Secures E.Works E.Works (fun _ => True) (Build.write x ranges b o) := by
  unfold Build.write
  refine .bind (secures_onTracked (yields_declaration x)) fun d _ => ?_
  have hrecord : ∀ a, E.Admits a → Secures E.Works E.Works (fun _ => True) (do
      Track.onTables (·.record x b a)
      Track.nameAfter x a
      pure a : Build Operand) := fun a ha =>
    .bind (secures_onTracked (yields_onTables fun _ hr => hr.record x hb ha)) fun _ _ =>
      .bind (secures_onTracked (yields_nameAfter x ha)) fun _ _ => .pure trivial
  dsimp only
  rcases ranges with - | ⟨r, - | ⟨r', ranges⟩⟩
  · refine .bind (.of_keeps fun s => ?_) fun ty _ => .ite (fun _ => hrecord o ho) fun _ => .throw _
    exact (Build.ends_edit _).2 (Edit.ends_typeOf? fun _ _ => rfl)
  · exact .bind (secures_provided fun s hs => (provision_admits E).splice hs ho d r b _) hrecord
  · exact .throw _

end Builds

/-! ## 2. Blocks and loops -/

/-- Everything outside the enclave is as it was, and the open loops are `L`. -/
structure Inside (E : Enclave) (L : List LoopFrame) (l : Lowering) : Prop where
  confines : E.Confines l.tracked
  loops : l.loops = L

/-- Work is done in the enclave, and the open loops are `L`. -/
structure Engaged (E : Enclave) (L : List LoopFrame) (l : Lowering) : Prop where
  works : E.Works l.bench
  loops : l.loops = L

/-- **Nothing outside the enclave is touched, and no open loop.** -/
def Confined {α : Type} (E : Enclave) (L : List LoopFrame) (A : α → Prop) (x : Lower α) : Prop :=
  Secures (E.Inside L) (E.Inside L) A x

/-- **The action leads from block to block in the enclave**, and touches nothing else. -/
def Closed (E : Enclave) (x : BlockId → Lower BlockId) : Prop :=
  ∀ L b, E.Covers b → E.Confined L E.Covers (x b)

section Blocks

variable {α : Type} {A : α → Prop} {L : List LoopFrame} {b c : BlockId}
  {body advance : BlockId → Lower BlockId}

theorem confined_track {x : Track α} (hx : Yields E.Confines A x) :
    E.Confined L A (liftM x : Lower α) := fun l hl =>
  (Lower.ends_track x).2 ((Secures.of_yields hx l.tracked hl.confines).mono
    fun _ _ h => ⟨⟨h.1, hl.loops⟩, h.2⟩)

theorem confined_edit {x : Edit α} (hx : Yields E.Contains A x) :
    E.Confined L A (liftM x : Lower α) := fun l hl =>
  (Lower.ends_edit x).2 ((Secures.of_yields hx l.bench.graph hl.confines.graph).mono
    fun _ _ h => ⟨⟨⟨h.1, hl.confines.tables⟩, hl.loops⟩, h.2⟩)

theorem engaged_build {x : Build α} (hx : Secures E.Works E.Works A x) :
    Secures (E.Engaged L) (E.Engaged L) A (liftM x : Lower α) := fun l hl =>
  (Lower.ends_build x).2 ((hx l.bench hl.works).mono fun _ _ h => ⟨⟨h.1, hl.loops⟩, h.2⟩)

theorem Confined.engaged {x : Lower α} (hx : E.Confined L A x) :
    Secures (E.Engaged L) (E.Inside L) A x := fun l hl => hx l ⟨hl.works.confines, hl.loops⟩

theorem secures_enter (hb : E.Covers b) :
    Secures (E.Inside L) (E.Engaged L) (fun _ => True) (Lower.enter b) :=
  fun _ hl => ⟨⟨⟨hl.confines, hb⟩, hl.loops⟩, trivial⟩

theorem confined_freshLabel (construct : String) :
    E.Confined L (fun _ => True) (Lower.freshLabel construct) :=
  fun _ hl => ⟨⟨hl.confines, hl.loops⟩, trivial⟩

/-- **A block made under a block of the enclave is dead.** -/
theorem confined_newBlock (hb : E.Covers b) (label : String) :
    E.Confined L E.Made (Lower.newBlock label b) := by
  refine .bind (confined_edit (yields_block hb)) fun y hy => ?_
  rw [if_pos hy.1]
  exact confined_edit (yields_deadEnd label)

theorem confined_deadBlock : E.Confined L E.Made Lower.deadBlock :=
  .bind (confined_freshLabel _) fun _ _ => .bind (confined_edit (yields_deadEnd _)) fun _ hb =>
    .bind (confined_track (yields_sealBlock hb)) fun _ _ => .pure hb

theorem confined_addEdge (hb : E.Covers b) (cond : Option Operand) (c : BlockId) :
    E.Confined L (fun _ => True) (liftM (Edit.addEdge b cond c) : Lower Unit) :=
  confined_edit (yields_addEdge hb cond c)

theorem secures_pushLoop (f : LoopFrame) :
    Secures (E.Inside L) (E.Inside (f :: L)) (fun _ => True) (Lower.pushLoop f) :=
  fun _ hl => ⟨⟨hl.confines, congrArg (f :: ·) hl.loops⟩, trivial⟩

theorem secures_popLoop (f : LoopFrame) (label : String) :
    Secures (E.Inside (f :: L)) (E.Inside L) (· = f) (Lower.popLoop label) := by
  intro l hl
  refine Lower.ends_popLoop (fun e => by rw [hl.loops] at e; cases e) fun f' rest e => ?_
  obtain ⟨rfl, rfl⟩ := List.cons.inj (hl.loops.symm.trans e)
  exact ⟨⟨hl.confines, rfl⟩, rfl⟩

/-! ## 3. Statements without control flow -/

/-- An operand is stored in a variable. -/
theorem engaged_store (x : VarId) (ranges : List BitRange) (hb : E.Covers b) {o : Operand}
    (ho : E.Admits o) (ty : Ty) (site : String) :
    Secures (E.Engaged L) (E.Inside L) E.Covers (do
      let o ← (liftM (Emit.coerceTo o ty site) : Lower Operand)
      discard (liftM (Build.write x ranges b o) : Lower Operand)
      pure b) := by
  refine .bind (engaged_build (secures_provided fun s hs =>
    (provision_admits E).coerceTo hs ho ty site)) fun a ha => ?_
  exact .bind (engaged_build (secures_write x ranges hb ha)).discard fun _ _ =>
    Confined.engaged (.pure hb)

theorem closed_assign (x : VarId) (ss : List Selector) (e : Expr) :
    E.Closed (Lower.assign x ss e) := by
  intro L b hb
  refine .bind (secures_enter hb) fun _ _ => ?_
  refine .bind (.of_keeps (Lower.keeps_declaration x)) fun d _ => ?_
  refine .ite (fun _ => .throw _) fun _ => ?_
  refine .bind (.of_keeps (Lower.keeps_selectedRanges _ _ _)) fun ranges _ => ?_
  refine .bind (engaged_build (secures_provided fun s hs =>
    (provision_admits E).lowerExpr e hs)) fun o ho => ?_
  exact engaged_store x ranges hb ho _ _

theorem closed_portRead (p : Program) (q : PortId) (x : VarId) :
    E.Closed (Lower.portRead p q x) := by
  intro L b hb
  refine .bind (secures_enter hb) fun _ _ => ?_
  refine .bind (.of_keeps (Lower.keeps_declaration x)) fun d _ => ?_
  refine .bind (.of_keeps (Lower.keeps_portFor p q .read _)) fun port _ => ?_
  refine .ite (fun _ => .throw _) fun _ => ?_
  have hread : Secures E.Works E.Works E.Admits
      (liftM (Emit.portRead port.id port.ty) : Build Operand) := by
    intro s hs
    unfold Emit.portRead
    rw [Build.ends_emit, Ends.bind_iff]
    exact Emit.ends_instr.mono fun v q hput => works_put hs (fun _ ho => by cases ho) hput
  exact .bind (engaged_build hread) fun o ho => engaged_store x [] hb ho _ _

theorem closed_portWrite (p : Program) (q : PortId) (e : Expr) :
    E.Closed (Lower.portWrite p q e) := by
  intro L b hb
  refine .bind (secures_enter hb) fun _ _ => ?_
  refine .bind (.of_keeps (Lower.keeps_portFor p q .write _)) fun port _ => ?_
  refine .bind (engaged_build (secures_provided fun s hs =>
    (provision_admits E).lowerExpr e hs)) fun o ho => ?_
  refine .bind (engaged_build (secures_provided fun s hs =>
    (provision_admits E).coerceTo hs ho port.ty _)) fun a ha => ?_
  have hwrite : Secures E.Works E.Works (fun _ => True)
      (liftM (Emit.portWrite port.id a) : Build ValueId) := by
    intro s hs
    unfold Emit.portWrite
    rw [Build.ends_emit, Ends.bind_iff]
    refine Emit.ends_operandType fun ty _ => Emit.ends_instr.mono fun v q hput => ?_
    exact ⟨(works_put hs (List.forall_mem_singleton.2 ha) hput).1, trivial⟩
  exact .bind (engaged_build hwrite).discard fun _ _ => Confined.engaged (.pure hb)

/-! ## 4. Jumps and joins -/

theorem closed_breakLoop : E.Closed Lower.breakLoop := by
  intro L b hb
  refine .bind (confined_edit (yields_block hb)) fun y hy => .look fun l _ => ?_
  refine .ite (fun _ => .throw _) fun _ => ?_
  rw [hy.1]
  exact confined_deadBlock.mono (fun _ h => h) fun _ => .inr

theorem closed_continueLoop (ha : E.Closed advance) : E.Closed (Lower.continueLoop advance) := by
  intro L b hb
  refine .look fun l _ => ?_
  split
  · exact .throw _
  · -- the edge to the head of the loop around starts at a dead block, so none is made
    refine .bind (ha L b hb) fun last hlast => .bind (confined_addEdge hlast none _) fun _ _ => ?_
    exact confined_deadBlock.mono (fun _ h => h) fun _ => .inr

theorem confined_arm (hbody : E.Closed body) (hb : E.Covers b) (label : String) (join : BlockId)
    (cond : Option Operand) (isEmpty : Bool) :
    E.Confined L (fun _ => True) (Lower.arm label b join cond isEmpty body) := by
  refine .ite (fun _ => confined_addEdge hb cond join) fun _ => ?_
  refine .bind (confined_newBlock hb label) fun first hfirst => ?_
  refine .bind (confined_addEdge hb cond first) fun _ _ => ?_
  refine .bind (confined_track (yields_sealBlock hfirst)) fun _ _ => ?_
  exact .bind (hbody L first (.inr hfirst)) fun last hlast => confined_addEdge hlast none join

theorem confined_sealJoin {join : BlockId} (hjoin : E.Made join) :
    E.Confined L (fun _ => True) (Lower.sealJoin join) := by
  refine .bind (confined_edit (yields_block (.inr hjoin))) fun y _ => ?_
  refine .ite (fun _ => ?_) fun _ => confined_track (yields_sealBlock hjoin)
  have hdead := yields_updateBlock (f := fun y => { y with kind := .unreachable })
    (.inr hjoin : E.Covers join) fun y hy => ⟨rfl, hy.2⟩
  exact .bind (confined_edit hdead) fun _ _ => confined_track (yields_sealBlock hjoin)

/-! ## 5. Loops -/

theorem engaged_lowerCondition (cond : Expr) :
    Secures (E.Engaged L) (E.Engaged L) E.Admits
      (liftM (Build.lowerCondition cond) : Lower Operand) :=
  engaged_build (secures_provided fun _ hs => (provision_admits E).lowerCondition cond hs)

theorem confined_loopTest {head first : BlockId} (hhead : E.Made head) (label : String)
    (cond : Expr) (known : Option Bool) :
    E.Confined L (fun exit? => ∀ exit, exit? = some exit → E.Made exit)
      (Lower.loopTest label cond known head first) := by
  refine .ite (fun _ => ?_) fun _ => ?_
  · exact .bind (confined_addEdge (.inr hhead) none first) fun _ _ => .pure fun _ e => by cases e
  · refine .bind (confined_newBlock (.inr hhead) _) fun exit hexit => ?_
    refine .bind (secures_enter (.inr hhead)) fun _ _ => ?_
    refine .bind (engaged_lowerCondition cond) fun c _ => Confined.engaged ?_
    refine .bind (confined_addEdge (.inr hhead) (some c) first) fun _ _ => ?_
    refine .bind (confined_addEdge (.inr hhead) none exit) fun _ _ => .pure fun a e => ?_
    cases e
    exact hexit

/-- **A loop that nothing reaches is left by no `break`**, so the block behind it is dead. -/
theorem confined_loopExit {f : LoopFrame} {exit? : Option BlockId} (hhead : E.Made f.head)
    (hbreaks : f.breaks = []) (hexit : ∀ exit, exit? = some exit → E.Made exit) :
    E.Confined L E.Made (Lower.loopExit f exit?) := by
  have hjoin : ∀ exit, E.Confined L (fun _ => True) (Lower.joinBreaks exit f.breaks) := by
    intro exit
    rw [hbreaks]
    exact .pure trivial
  cases exit? with
  | some exit =>
    refine .bind (hjoin exit) fun _ _ => ?_
    exact .bind (confined_track (yields_sealBlock hhead)) fun _ _ => .pure (hexit exit rfl)
  | none =>
    refine .bind (confined_track (yields_sealBlock hhead)) fun _ _ => ?_
    refine .ite (fun _ => confined_edit (yields_deadEnd _)) fun _ => ?_
    refine .bind (confined_newBlock (.inr hhead) _) fun exit hexit => ?_
    exact .bind (hjoin exit) fun _ _ => .pure hexit

theorem closed_loop (hbody : E.Closed body) (ha : E.Closed advance) (construct : String)
    (cond : Expr) (step : List Stmt) : E.Closed (Lower.loop construct cond step body advance) := by
  intro L b hb
  refine .bind (.of_keeps (Lower.keeps_knownCondition cond)) fun known _ => ?_
  refine .ite (fun _ => .pure hb) fun _ => ?_
  refine .bind (confined_freshLabel construct) fun label _ => ?_
  refine .bind (confined_newBlock hb _) fun head hhead => ?_
  refine .bind (confined_newBlock (.inr hhead) _) fun first hfirst => ?_
  refine .bind (confined_addEdge hb none head) fun _ _ => ?_
  refine .bind (confined_loopTest hhead label cond known) fun exit? hexit => ?_
  refine .bind (confined_track (yields_sealBlock hfirst)) fun _ _ => ?_
  -- the loop is open while its body and its step are lowered, and its frame is as it was then
  refine .bind (secures_pushLoop ⟨label, head, [], step⟩) fun _ _ => ?_
  refine .bind (hbody _ first (.inr hfirst)) fun last hlast => ?_
  refine .bind (ha _ last hlast) fun last hlast => ?_
  refine .bind (secures_popLoop _ label) fun f hf => ?_
  subst hf
  refine .bind (confined_addEdge hlast none head) fun _ _ => ?_
  refine .bind (confined_loopExit hhead rfl hexit) fun exit hexit => ?_
  exact .bind (confined_track (yields_sealBlock hexit)) fun _ _ => .pure (.inr hexit)

theorem closed_pure : E.Closed pure := fun _ _ hb => .pure hb

/-! ## 6. All statements -/

mutual

/-- **A statement that starts in an enclave touches nothing outside.** -/
theorem closed_lowerStmt (p : Program) (s : Stmt) {advance : BlockId → Lower BlockId}
    (ha : E.Closed advance) : E.Closed (Lower.lowerStmt p advance s) := by
  match s with
  | .assign x ss e =>
    intro L b hb
    rw [Lower.lowerStmt]
    exact closed_assign x ss e L b hb
  | .read q x =>
    intro L b hb
    rw [Lower.lowerStmt]
    exact closed_portRead p q x L b hb
  | .write q e =>
    intro L b hb
    rw [Lower.lowerStmt]
    exact closed_portWrite p q e L b hb
  | .branch arms otherwise =>
    intro L b hb
    rw [Lower.lowerStmt]
    refine .bind (confined_freshLabel "if") fun label _ => ?_
    refine .bind (confined_newBlock hb _) fun join hjoin => ?_
    refine .bind (confined_lowerArms p arms ha hb label join 0) fun closed _ => ?_
    have hend : E.Confined L E.Covers (do
        Lower.sealJoin join
        pure join) := .bind (confined_sealJoin hjoin) fun _ _ => .pure (.inr hjoin)
    refine .ite (fun _ => ?_) fun _ => hend
    exact .bind (confined_arm (closed_lowerStmts p otherwise ha) hb _ join none _) fun _ _ => hend
  | .whileLoop cond body =>
    intro L b hb
    rw [Lower.lowerStmt]
    exact closed_loop (closed_lowerStmts p body closed_pure) closed_pure _ _ _ L b hb
  | .forLoop init cond step body =>
    intro L b hb
    rw [Lower.lowerStmt]
    have hstep : E.Closed (Lower.lowerStmts p pure step) := closed_lowerStmts p step closed_pure
    refine .bind (closed_lowerStmts p init ha L b hb) fun start hstart => ?_
    exact closed_loop (closed_lowerStmts p body hstep) hstep _ _ _ L start hstart
  | .breakLoop =>
    intro L b hb
    rw [Lower.lowerStmt]
    exact closed_breakLoop L b hb
  | .continueLoop =>
    intro L b hb
    rw [Lower.lowerStmt]
    exact closed_continueLoop ha L b hb

/-- **Statements that start in an enclave touch nothing outside.** -/
theorem closed_lowerStmts (p : Program) (ss : List Stmt) {advance : BlockId → Lower BlockId}
    (ha : E.Closed advance) : E.Closed (Lower.lowerStmts p advance ss) := by
  match ss with
  | [] =>
    intro L b hb
    rw [Lower.lowerStmts]
    exact .pure hb
  | s :: ss =>
    intro L b hb
    rw [Lower.lowerStmts]
    exact .bind (closed_lowerStmt p s ha L b hb) fun next hnext =>
      closed_lowerStmts p ss ha L next hnext

theorem confined_lowerArms (p : Program) (arms : List (Expr × List Stmt))
    {advance : BlockId → Lower BlockId} (ha : E.Closed advance) {L : List LoopFrame} {b : BlockId}
    (hb : E.Covers b) (label : String) (join : BlockId) (i : Nat) :
    E.Confined L (fun _ => True) (Lower.lowerArms p advance label b join i arms) := by
  match arms with
  | [] =>
    rw [Lower.lowerArms]
    exact .pure trivial
  | (cond, body) :: rest =>
    rw [Lower.lowerArms]
    have hbody := closed_lowerStmts p body ha
    have hrest := confined_lowerArms p rest (L := L) ha hb label join (i + 1)
    refine .bind (.of_keeps (Lower.keeps_knownCondition cond)) fun known _ => ?_
    refine .ite (fun _ => hrest) fun _ => ?_
    have harm : ∀ test, E.Confined L (fun _ => True) (do
        Lower.arm (label ++ ".arm" ++ toString i) b join test body.isEmpty
          (Lower.lowerStmts p advance body)
        if known = some true then pure true
        else Lower.lowerArms p advance label b join (i + 1) rest) := fun test =>
      .bind (confined_arm hbody hb _ join test _) fun _ _ =>
        .ite (fun _ => .pure trivial) fun _ => hrest
    refine .ite (fun _ => .bind (.pure (A := fun _ => True) trivial) fun test _ => harm test)
      fun _ => ?_
    refine .bind (secures_enter hb) fun _ _ => ?_
    refine .bind (engaged_lowerCondition cond) fun c _ => Confined.engaged ?_
    exact .bind (.pure (A := fun _ => True) trivial) fun test _ => harm test

end

/-- What leads on to the next round of the innermost open loop is a list of statements. -/
theorem closed_innermostAdvance (p : Program) (fs : List LoopFrame) :
    E.Closed (Lower.innermostAdvance p fs) := by
  cases fs with
  | nil => exact closed_pure
  | cons f rest => exact closed_lowerStmts p f.step closed_pure

end Blocks

end Enclave

end BitFlow
