import BitFlow.Proofs.Course.Program
import BitFlow.Proofs.Lower.Enduring
import BitFlow.Proofs.Width.Expr

/-!
# How wide the literals of a lowering are

The statements of a program hand operands from expressions to variables, ports and branches. No
statement makes an operand of a size that `Graph.Sizes` does not allow, so a literal that is wider
than the storage stands where a declaration or a value is at least as wide. Such literals exist: the
store into a wide variable makes one.

Main statements: `Watch.bounds_program` -- at no depth does a lowering make an operand of another
size; `Program.literals_sized` -- every literal in a state that a lowering meets or leaves is of
such a size; `Program.literals_wideStore` -- some are wider than the storage.
-/

namespace BitFlow

namespace Lower

open BitFlow.Graph BitFlow.Build

variable {p : Program} {l : Lowering} {α : Type}

/-! ## 1. Operations of a lowering -/

theorem bounds_newBlock (h : l.tracked.Measured p) (label : String) (parent : BlockId) :
    Bounds p l (newBlock label parent) fun _ _ => True :=
  .bind (bounds_edit h (Edit.yields_block parent)) fun _ _ hm _ =>
    bounds_edit hm.measured (Edit.yields_addBlock label _)

theorem bounds_addBreak (h : l.tracked.Measured p) (b : BlockId) :
    Bounds p l (addBreak b) fun _ _ => True := by
  obtain ⟨bench, loops, n⟩ := l
  cases loops <;> exact ⟨.refl h, trivial⟩

theorem bounds_popLoop (h : l.tracked.Measured p) (label : String) :
    Bounds p l (popLoop label) fun _ _ => True := by
  refine .look ?_
  split
  · exact ⟨.refl h, trivial⟩
  · exact .throw (.refl h) _

theorem bounds_setStep (h : l.tracked.Measured p) (step : List Stmt) :
    Bounds p l (Watch.setStep step) fun _ _ => True := by
  obtain ⟨bench, loops, n⟩ := l
  cases loops <;> exact ⟨.refl h, trivial⟩

/-- The ranges of an assignment lie inside the variable. -/
theorem bounds_selectedRanges (h : l.tracked.Measured p) (ss : List Selector) (width : Nat)
    (site : String) :
    Bounds p l (selectedRanges ss width site) fun _ rs => ∀ r ∈ rs, r.Within width := by
  have hwithin : ∀ (r : BitRange) (m : Lowering), m.tracked.Measured p →
      Bounds p m (if r.Within width then pure r else throw (.outOfRange r.msb r.lsb width site))
        fun _ r => r.Within width := fun r m hm =>
    .ite (fun hr => .pure (.refl hm) hr) fun _ => .throw (.refl hm) _
  have hone : ∀ s, Bounds p l (selectedRange s width site) fun _ r => r.Within width := by
    intro s
    unfold selectedRange
    cases s with
    | bit pos =>
      dsimp only
      split
      · exact hwithin _ l h
      · exact .throw (.refl h) _
    | range msb lsb =>
      refine .bind (bounds_build (builds_bound h msb)) fun hi m hm _ => ?_
      exact .bind (bounds_build (builds_bound hm.measured lsb)) fun lo n hn _ =>
        hwithin ⟨hi, lo⟩ n hn.measured
  unfold selectedRanges
  split
  · exact .pure (.refl h) fun r hr => by cases hr
  · exact .bind (hone _) fun r m hm hr =>
      .pure (.refl hm.measured) fun r' hr' => List.mem_singleton.1 hr' ▸ hr
  · exact .throw (.refl h) _

/-- What is stored into a part of a variable is no wider than the variable. -/
theorem sizes_storeType {g : Graph} {ty : Ty} (h : g.Sizes p ty) {rs : List BitRange}
    (hrs : ∀ r ∈ rs, r.Within ty.width) : g.Sizes p (storeType ty rs) := by
  cases rs with
  | nil => exact h
  | cons r rs =>
    obtain ⟨-, hmsb⟩ := hrs r List.mem_cons_self
    refine h.of_le (Nat.le_add_left 1 _) ?_
    show r.msb - r.lsb + 1 ≤ ty.width
    omega

theorem bounds_portFor (h : l.tracked.Measured p) (q : PortId) (access : Access) (site : String) :
    Bounds p l (portFor p q access site) fun _ port => port ∈ p.ports := by
  unfold portFor
  split
  · exact .throw (.refl h) _
  · rename_i port hport
    have hmem : port ∈ p.ports := List.mem_of_getElem? hport
    split
    · exact .pure (.refl h) hmem
    · exact .pure (.refl h) hmem
    · exact .throw (.refl h) _

end Lower

namespace Watch

open BitFlow.Graph BitFlow.Build

variable {p : Program} {w : Watched} {n : Nat}

/-- **What is done at the end of a block** makes only operands of the right size. -/
def Sizing (p : Program) (f : BlockId → Watch BlockId) : Prop :=
  ∀ b w, w.now.tracked.Measured p → Bounds p w (f b) fun _ _ => True

theorem bounds_enter (h : w.now.tracked.Measured p) (b : BlockId) :
    Bounds p w (op (Lower.enter b)) fun _ _ => True := .op h ⟨.refl h, trivial⟩

theorem bounds_freshLabel (h : w.now.tracked.Measured p) (construct : String) :
    Bounds p w (op (Lower.freshLabel construct)) fun _ _ => True := .op h ⟨.refl h, trivial⟩

theorem bounds_knownCondition (h : w.now.tracked.Measured p) (cond : Expr) :
    Bounds p w (build (knownCondition cond)) fun _ _ => True := .build h ⟨.refl h, trivial⟩

theorem bounds_newBlock (h : w.now.tracked.Measured p) (label : String) (parent : BlockId) :
    Bounds p w (op (Lower.newBlock label parent)) fun _ _ => True :=
  .op h (Lower.bounds_newBlock h label parent)

theorem bounds_sealBlock (h : w.now.tracked.Measured p) (n : Nat) (b : BlockId) :
    Bounds p w (track (Course.sealBlock n b)) fun _ _ => True :=
  .track h (Course.preserves_sealBlock (fun _ => trivial) n b) fun _ _ _ _ => trivial

theorem bounds_addEdge (h : w.now.tracked.Measured p) (q c : BlockId) {cond : Option Operand}
    (hc : ∀ o, cond = some o → w.now.bench.graph.Sized p o) :
    Bounds p w (build (Edit.addEdge q cond c)) fun _ _ => True :=
  .edit h (Edit.yields_addEdge hc)

/-- A jump without a condition. -/
theorem bounds_jump (h : w.now.tracked.Measured p) (q c : BlockId) :
    Bounds p w (build (Edit.addEdge q none c)) fun _ _ => True :=
  bounds_addEdge h q c fun _ e => by cases e

theorem bounds_deadBlock (h : w.now.tracked.Measured p) (n : Nat) :
    Bounds p w (deadBlock n) fun _ _ => True := by
  refine .bind (bounds_freshLabel h "dead") fun label w₁ h₁ _ => ?_
  refine .bind (.edit h₁.measured (Edit.yields_addBlock label _)) fun b w₂ h₂ _ => ?_
  exact .bind (bounds_sealBlock h₂.measured n b) fun _ w₃ h₃ _ => .pure h₃.measured trivial

/-! ## 2. Statements without control flow -/

/-- A store into a variable: a literal gets the type of the place that it is stored into. -/
theorem bounds_store (h : w.now.tracked.Measured p) {o : Operand}
    (ho : w.now.bench.graph.Sized p o) {ty : Ty} (hty : w.now.bench.graph.Sizes p ty) (n : Nat)
    (x : VarId) (rs : List BitRange) (b : BlockId) (site : String) :
    Bounds p w (do
      let o ← coerceTo o ty site
      discard (write n x rs b o)
      pure b) fun _ _ => True := by
  refine .bind (bounds_coerceTo h ho hty) fun o w₁ h₁ ho => ?_
  exact .bind (bounds_write h₁.measured n x rs b ho).discard fun _ w₂ h₂ _ =>
    .pure h₂.measured trivial

/-- **An assignment.** -/
theorem sizing_assign (n : Nat) (x : VarId) (ss : List Selector) (e : Expr) :
    Sizing p (assign n x ss e) := by
  intro b w h
  refine .bind (bounds_enter h b) fun _ w₁ h₁ _ => ?_
  refine .bind (bounds_declaration h₁.measured x) fun d w₂ h₂ hd => ?_
  dsimp only
  refine .ite (fun _ => .throw h₂.measured _) fun _ => ?_
  refine .bind (.op h₂.measured (Lower.bounds_selectedRanges h₂.measured ss d.ty.width _))
    fun rs w₃ h₃ hrs => ?_
  refine .bind (bounds_lowerExpr n e h₃.measured) fun o w₄ h₄ ho => ?_
  have hty := (Lower.sizes_storeType (hd.mono h₃.keeps) hrs).mono h₄.keeps
  exact bounds_store h₄.measured ho hty n x rs b _

theorem bounds_portFor (h : w.now.tracked.Measured p) (q : PortId) (access : Access)
    (site : String) : Bounds p w (op (Lower.portFor p q access site)) fun _ port => port ∈ p.ports :=
  .op h (Lower.bounds_portFor h q access site)

section Ports

variable (hports : ∀ q ∈ p.ports, 1 ≤ q.ty.width)

include hports

/-- **A read of a port.** -/
theorem sizing_portRead (n : Nat) (q : PortId) (x : VarId) : Sizing p (portRead n p q x) := by
  intro b w h
  refine .bind (bounds_enter h b) fun _ w₁ h₁ _ => ?_
  refine .bind (bounds_declaration h₁.measured x) fun d w₂ h₂ hd => ?_
  dsimp only
  refine .bind (bounds_portFor h₂.measured q .read _) fun port w₃ h₃ hport => ?_
  refine .ite (fun _ => .throw h₃.measured _) fun _ => ?_
  refine .bind (bounds_emit h₃.measured
    fun hg => Emit.emits_portRead hg port.id (hports port hport)) fun o w₄ h₄ ho => ?_
  exact bounds_store h₄.measured ho ((hd.mono h₃.keeps).mono h₄.keeps) n x [] b _

/-- **A write to a port**: a literal gets the type of the port. -/
theorem sizing_portWrite (n : Nat) (q : PortId) (e : Expr) : Sizing p (portWrite n p q e) := by
  intro b w h
  refine .bind (bounds_enter h b) fun _ w₁ h₁ _ => ?_
  dsimp only
  refine .bind (bounds_portFor h₁.measured q .write _) fun port w₂ h₂ hport => ?_
  refine .bind (bounds_lowerExpr n e h₂.measured) fun o w₃ h₃ ho => ?_
  have hty : w₃.now.bench.graph.Sizes p port.ty :=
    ⟨hports port hport, .inr (.inr (.inl ⟨port, hport, Nat.le_refl _⟩))⟩
  refine .bind (bounds_coerceTo h₃.measured ho hty) fun o w₄ h₄ ho => ?_
  refine .bind (bounds_emit h₄.measured fun hg => Emit.emits_portWrite hg port.id ho).discard
    fun _ w₅ h₅ _ => ?_
  exact .pure h₅.measured trivial

end Ports

/-! ## 3. Jumps, joins and the edges of loops -/

theorem sizing_breakLoop (n : Nat) : Sizing p (breakLoop n) := by
  intro b w h
  refine .bind (.edit h (Edit.yields_block b)) fun y w₁ h₁ _ => .look ?_
  refine .ite (fun _ => .throw h₁.measured _) fun _ => ?_
  refine .ite (fun _ => ?_) fun _ => bounds_deadBlock h₁.measured n
  exact .bind (.op h₁.measured (Lower.bounds_addBreak h₁.measured b)) fun _ w₂ h₂ _ =>
    bounds_deadBlock h₂.measured n

theorem bounds_sealJoin (h : w.now.tracked.Measured p) (n : Nat) (join : BlockId) :
    Bounds p w (sealJoin n join) fun _ _ => True := by
  refine .bind (.edit h (Edit.yields_block join)) fun y w₁ h₁ _ => ?_
  refine .ite (fun _ => ?_) fun _ => bounds_sealBlock h₁.measured n join
  refine .bind (.edit h₁.measured (Edit.yields_updateBlock join
    fun y br o hbr ho hy => hy br hbr o ho)) fun _ w₂ h₂ _ => ?_
  exact bounds_sealBlock h₂.measured n join

theorem bounds_loopTest (h : w.now.tracked.Measured p) (n : Nat) (label : String) (cond : Expr)
    (known : Option Bool) (head first : BlockId) :
    Bounds p w (loopTest n label cond known head first) fun _ _ => True := by
  refine .ite (fun _ => ?_) fun _ => ?_
  · exact .bind (bounds_jump h head first) fun _ _ h₁ _ => .pure h₁.measured trivial
  · refine .bind (bounds_newBlock h _ head) fun exit w₁ h₁ _ => ?_
    refine .bind (bounds_enter h₁.measured head) fun _ w₂ h₂ _ => ?_
    refine .bind (bounds_lowerCondition h₂.measured n cond) fun c w₃ h₃ hc => ?_
    refine .bind (bounds_addEdge h₃.measured head first fun o e => Option.some.inj e ▸ hc)
      fun _ w₄ h₄ _ => ?_
    refine .bind (bounds_jump h₄.measured head exit) fun _ w₅ h₅ _ => ?_
    exact .pure h₅.measured trivial

theorem bounds_joinBreaks (h : w.now.tracked.Measured p) (exit : BlockId)
    (breaks : List BlockId) : Bounds p w (joinBreaks exit breaks) fun _ _ => True := by
  induction breaks generalizing w with
  | nil => exact .pure h trivial
  | cons q qs ih => exact .bind (bounds_jump h q exit) fun _ _ h₁ _ => ih h₁.measured

theorem bounds_loopExit (h : w.now.tracked.Measured p) (n : Nat) (f : LoopFrame)
    (exit? : Option BlockId) : Bounds p w (loopExit n f exit?) fun _ _ => True := by
  cases exit? with
  | some exit =>
    refine .bind (bounds_joinBreaks h exit f.breaks) fun _ w₁ h₁ _ => ?_
    refine .bind (bounds_sealBlock h₁.measured n f.head) fun _ w₂ h₂ _ => ?_
    exact .pure h₂.measured trivial
  | none =>
    refine .bind (bounds_sealBlock h n f.head) fun _ w₁ h₁ _ => ?_
    refine .ite (fun _ => .edit h₁.measured (Edit.yields_addBlock _ _)) fun _ => ?_
    refine .bind (bounds_newBlock h₁.measured _ f.head) fun exit w₂ h₂ _ => ?_
    refine .bind (bounds_joinBreaks h₂.measured exit f.breaks) fun _ w₃ h₃ _ => ?_
    exact .pure h₃.measured trivial

/-! ## 4. All statements -/

/-- **Statements at the depth `n`** make only operands of the right size. -/
structure SizingAt (p : Program) (n : Nat) : Prop where
  stmt : ∀ s, Sizing p (lowerStmt n p s)
  stmts : ∀ ss, Sizing p (lowerStmts n p ss)
  arms : ∀ label b join i arms w, w.now.tracked.Measured p →
    Bounds p w (lowerArms n p label b join i arms) fun _ _ => True
  arm : ∀ label b join cond body w, w.now.tracked.Measured p →
    (∀ o, cond = some o → w.now.bench.graph.Sized p o) →
    Bounds p w (arm n p label b join cond body) fun _ _ => True
  loop : ∀ construct cond step body, Sizing p (loop n p construct cond step body)
  step : Sizing p (lowerStep n p)
  next : Sizing p (continueLoop n p)

namespace SizingAt

variable (h : SizingAt p n)

include h

theorem lowerStmts_succ (ss : List Stmt) : Sizing p (lowerStmts (n + 1) p ss) := by
  intro b w hw
  unfold lowerStmts
  cases ss with
  | nil => exact .pure hw trivial
  | cons s ss => exact .bind (h.stmt s b w hw) fun next w₁ h₁ _ => h.stmts ss next w₁ h₁.measured

/-- A conditional: its arms one after the other, then its join. -/
theorem lowerArms_succ (label : String) (b join : BlockId) (i : Nat)
    (arms : List (Expr × List Stmt)) (w : Watched) (hw : w.now.tracked.Measured p) :
    Bounds p w (lowerArms (n + 1) p label b join i arms) fun _ _ => True := by
  unfold lowerArms
  rcases arms with - | ⟨⟨cond, body⟩, rest⟩
  · exact .pure hw trivial
  · refine .bind (bounds_knownCondition hw cond) fun known w₁ h₁ _ => ?_
    refine .ite (fun _ => h.arms _ _ _ _ rest w₁ h₁.measured) fun _ => ?_
    dsimp only
    split
    · -- the arm is always taken
      rw [pure_bind]
      refine .bind (h.arm _ b join none body w₁ h₁.measured fun _ e => by cases e)
        fun _ w₂ h₂ _ => ?_
      exact .pure h₂.measured trivial
    · refine .bind (bounds_enter h₁.measured b) fun _ w₂ h₂ _ => ?_
      refine .bind (bounds_lowerCondition h₂.measured n cond) fun c w₃ h₃ hc => ?_
      rw [pure_bind]
      refine .bind (h.arm _ b join (some c) body w₃ h₃.measured
        fun o e => Option.some.inj e ▸ hc) fun _ w₄ h₄ _ => ?_
      exact h.arms _ _ _ _ rest w₄ h₄.measured

theorem arm_succ (label : String) (b join : BlockId) (cond : Option Operand) (body : List Stmt)
    (w : Watched) (hw : w.now.tracked.Measured p)
    (hc : ∀ o, cond = some o → w.now.bench.graph.Sized p o) :
    Bounds p w (Watch.arm (n + 1) p label b join cond body) fun _ _ => True := by
  unfold Watch.arm
  refine .ite (fun _ => bounds_addEdge hw b join hc) fun _ => ?_
  refine .bind (bounds_newBlock hw label b) fun first w₁ h₁ _ => ?_
  refine .bind (bounds_addEdge h₁.measured b first fun o e => (hc o e).mono h₁.keeps)
    fun _ w₂ h₂ _ => ?_
  refine .bind (bounds_sealBlock h₂.measured n first) fun _ w₃ h₃ _ => ?_
  refine .bind (h.stmts body first w₃ h₃.measured) fun last w₄ h₄ _ => ?_
  exact bounds_jump h₄.measured last join

theorem loop_succ (construct : String) (cond : Expr) (step body : List Stmt) :
    Sizing p (Watch.loop (n + 1) p construct cond step body) := by
  intro b w hw
  unfold Watch.loop
  refine .bind (bounds_knownCondition hw cond) fun known w₁ h₁ _ => ?_
  refine .ite (fun _ => .pure h₁.measured trivial) fun _ => ?_
  refine .bind (bounds_freshLabel h₁.measured construct) fun label w₂ h₂ _ => ?_
  refine .bind (bounds_newBlock h₂.measured _ b) fun head w₃ h₃ _ => ?_
  refine .bind (bounds_newBlock h₃.measured _ head) fun first w₄ h₄ _ => ?_
  refine .bind (bounds_jump h₄.measured b head) fun _ w₅ h₅ _ => ?_
  refine .bind (bounds_loopTest h₅.measured n label cond known head first)
    fun exit? w₆ h₆ _ => ?_
  refine .bind (bounds_sealBlock h₆.measured n first) fun _ w₇ h₇ _ => ?_
  have hpush : Bounds p w₇ (op (Lower.pushLoop ⟨label, head, [], step⟩)) fun _ _ => True :=
    .op h₇.measured ⟨.refl h₇.measured, trivial⟩
  refine .bind hpush fun _ w₈ h₈ _ => ?_
  refine .bind (h.stmts body first w₈ h₈.measured) fun last w₉ h₉ _ => ?_
  refine .bind (h.step last w₉ h₉.measured) fun last u₁ k₁ _ => ?_
  refine .bind (.op k₁.measured (Lower.bounds_popLoop k₁.measured label)) fun f u₂ k₂ _ => ?_
  refine .bind (bounds_jump k₂.measured last head) fun _ u₃ k₃ _ => ?_
  refine .bind (bounds_loopExit k₃.measured n f exit?) fun exit u₄ k₄ _ => ?_
  refine .bind (bounds_sealBlock k₄.measured n exit) fun _ u₅ k₅ _ => ?_
  exact .pure k₅.measured trivial

theorem lowerStep_succ : Sizing p (lowerStep (n + 1) p) := by
  intro b w hw
  unfold lowerStep
  refine .look ?_
  split
  · exact .pure hw trivial
  · refine .ite (fun _ => .pure hw trivial) fun _ => ?_
    refine .bind (.op hw (Lower.bounds_setStep hw _)) fun _ w₁ h₁ _ => ?_
    refine .bind (h.stmts _ b w₁ h₁.measured) fun last w₂ h₂ _ => ?_
    exact .bind (.op h₂.measured (Lower.bounds_setStep h₂.measured _)) fun _ w₃ h₃ _ =>
      .pure h₃.measured trivial

theorem continueLoop_succ : Sizing p (continueLoop (n + 1) p) := by
  intro b w hw
  unfold continueLoop
  have hlook : Bounds p w Watch.look fun _ _ => True := .op hw ⟨.refl hw, trivial⟩
  refine .bind hlook fun l w₁ h₁ _ => ?_
  split
  · exact .throw h₁.measured _
  · refine .bind (h.step b w₁ h₁.measured) fun last w₂ h₂ _ => ?_
    exact .bind (bounds_jump h₂.measured last _) fun _ w₃ h₃ _ => bounds_deadBlock h₃.measured n

theorem lowerStmt_succ (hports : ∀ q ∈ p.ports, 1 ≤ q.ty.width) (s : Stmt) :
    Sizing p (lowerStmt (n + 1) p s) := by
  intro b w hw
  unfold lowerStmt
  cases s with
  | assign x ss e => exact sizing_assign n x ss e b w hw
  | read q x => exact sizing_portRead hports n q x b w hw
  | write q e => exact sizing_portWrite hports n q e b w hw
  | branch arms otherwise =>
    refine .bind (bounds_freshLabel hw "if") fun label w₁ h₁ _ => ?_
    refine .bind (bounds_newBlock h₁.measured _ b) fun join w₂ h₂ _ => ?_
    refine .bind (h.arms _ _ _ _ arms w₂ h₂.measured) fun closed w₃ h₃ _ => ?_
    have hjoin : ∀ w : Watched, w.now.tracked.Measured p → Bounds p w (do
        sealJoin n join
        pure join) fun _ _ => True := fun w hw =>
      .bind (bounds_sealJoin hw n join) fun _ _ h' _ => .pure h'.measured trivial
    refine .ite (fun _ => ?_) fun _ => hjoin w₃ h₃.measured
    exact .bind (h.arm _ b join none otherwise w₃ h₃.measured fun _ e => by cases e)
      fun _ w₄ h₄ _ => hjoin w₄ h₄.measured
  | whileLoop cond body => exact h.loop _ cond [] body b w hw
  | forLoop init cond step body =>
    exact .bind (h.stmts init b w hw) fun start w₁ h₁ _ =>
      h.loop _ cond step body start w₁ h₁.measured
  | breakLoop => exact sizing_breakLoop n b w hw
  | continueLoop => exact h.next b w hw

end SizingAt

/-- **Statements at any depth** make only operands of the right size. -/
theorem sizingAt (hports : ∀ q ∈ p.ports, 1 ≤ q.ty.width) (n : Nat) : SizingAt p n := by
  induction n with
  | zero =>
    exact ⟨fun _ _ _ _ => .cut, fun _ _ _ _ => .cut, fun _ _ _ _ _ _ _ => .cut,
      fun _ _ _ _ _ _ _ _ => .cut, fun _ _ _ _ _ _ _ => .cut, fun _ _ _ => .cut, fun _ _ _ => .cut⟩
  | succ n ih =>
    exact ⟨ih.lowerStmt_succ hports, ih.lowerStmts_succ, ih.lowerArms_succ, ih.arm_succ,
      ih.loop_succ, ih.lowerStep_succ, ih.continueLoop_succ⟩

/-! ## 5. Programs -/

/-- An empty graph has no operands. -/
theorem measured_start (hvars : ∀ d ∈ p.vars, 1 ≤ d.ty.width) (s : Settings) :
    (Lowering.start p s).tracked.Measured p := by
  have hgraph : (Graph.fresh p.name).Bears ((Graph.fresh p.name).Sized p) (.fresh p.name) := by
    refine ⟨.refl _, fun {v x} hx => ?_, fun {v x o} hx => ?_, fun {b y br o} hy hbr => ?_,
      fun ho => by cases ho⟩
    · cases hx
    · cases hx
    · obtain ⟨_ | n⟩ := b
      · cases hy
        cases hbr
      · cases hy
  refine ⟨hgraph, ⟨fun ho => (by cases ho), fun {x d} hd => ?_⟩⟩
  have hmem : d ∈ p.vars := mem_of_variableById? hd
  exact ⟨hvars d hmem, .inr (.inl ⟨d, hmem, Nat.le_refl _⟩)⟩

/-- **The body of a program** makes only operands of the right size. -/
theorem bounds_program (hports : ∀ q ∈ p.ports, 1 ≤ q.ty.width) (n : Nat)
    (h : w.now.tracked.Measured p) : Bounds p w (program n p) fun _ _ => True := by
  have hbody : ∀ (entry : BlockId) (w : Watched), w.now.tracked.Measured p → Bounds p w (do
      let exit ← lowerStmts n p p.body entry
      build (Build.onGraph (modify fun g => { g with exit := some exit }))
      pure exit) fun _ _ => True := by
    intro entry w hw
    refine .bind ((sizingAt hports n).stmts p.body entry w hw) fun exit w₁ h₁ _ => ?_
    let note : Edit PUnit := modify fun g => { g with exit := some exit }
    have hnote : Bounds p w₁ (build (Build.onGraph note)) fun _ _ => True :=
      .edit (x := note) h₁.measured (.modify fun g hg => hg.congr rfl rfl rfl)
    exact .bind hnote fun _ w₂ h₂ _ => .pure h₂.measured trivial
  refine .look (.bind (.edit h (Edit.yields_block _)) fun y w₁ h₁ _ => ?_)
  refine .ite (fun _ => ?_) fun _ => hbody _ w₁ h₁.measured
  exact .bind (bounds_sealBlock h₁.measured n _) fun _ w₂ h₂ _ => hbody _ w₂ h₂.measured

end Watch

/-! ## 6. States of a lowering -/

/-- **A literal stands in graph or tables**: in an instruction, a phi or a branch, or as the
    recorded content of a variable. -/
inductive Tracked.HoldsLiteral (t : Tracked) (c : Literal) : Prop
  | operand {v : ValueId} {x : Value} (value : t.graph.value? v = some x)
      (mem : .lit c ∈ x.operands)
  | condition {b : BlockId} {y : Block} {br : Branch} (block : t.graph.block? b = some y)
      (mem : br ∈ y.branches) (cond : br.cond = some (.lit c))
  | definition {x : VarId} {b : BlockId} (recorded : t.reaching.definition? x b = some (.lit c))

namespace Program

variable {p : Program} {s : Settings} {t : Tracked}

section Declared

variable (hvars : ∀ d ∈ p.vars, 1 ≤ d.ty.width) (hports : ∀ q ∈ p.ports, 1 ≤ q.ty.width)

include hvars hports

/-- What is noted at a depth is in order, and the last state makes no operand of another size. -/
theorem allows_course (s : Settings) (n : Nat) :
    Course.Allows (Watch.program n p) ⟨.start p s, []⟩
      (fun e w => w.now.tracked.Measured p ∧ ∀ note ∈ w.past, note.Fit p e.WideLiteral)
      fun _ w => w.now.tracked.Measured p ∧ ∀ note ∈ w.past, note.Fit p False := by
  have hpast : ∀ {E : Prop} {w : Watched}, Watched.Leads p E ⟨.start p s, []⟩ w →
      w.now.tracked.Measured p ∧ ∀ note ∈ w.past, note.Fit p E := fun h =>
    ⟨h.grows.measured, fun note hnote => (h.past note hnote).resolve_left List.not_mem_nil⟩
  exact (Watch.bounds_program hports n (Watch.measured_start hvars s)).mono
    (fun _ _ h => hpast h) fun _ _ h => hpast h.1

theorem measured_of_meets (ht : p.Meets s t) : t.Measured p := by
  obtain ⟨n, hn⟩ := ht
  have hmem := hn n (Nat.le_refl n)
  have hnotes := allows_course hvars hports s n
  have hpast : ∀ {E : Prop} {past : List Note}, (∀ note ∈ past, note.Fit p E) →
      t ∈ past.map Note.state → t.Measured p := by
    intro E past hpast hmem
    obtain ⟨note, hnote, rfl⟩ := List.mem_map.1 hmem
    exact (hpast note hnote).measured
  unfold journal course at hmem
  match hrun : (Watch.program n p).outcome ⟨.start p s, []⟩ with
  | none =>
    rw [hrun] at hmem
    cases hmem
  | some (.error e w) =>
    rw [hrun] at hmem
    exact hpast (hnotes.of_error hrun).2 hmem
  | some (.ok b w) =>
    rw [hrun] at hmem
    obtain rfl | hmem := List.mem_cons.1 hmem
    · exact (hnotes.of_ok hrun).1
    · exact hpast (hnotes.of_ok hrun).2 hmem

/-- The state that is left is the last one of a course. -/
theorem measured_reached (s : Settings) : (p.reached s).tracked.Measured p := by
  refine (after_iff _ _ fun l : Lowering => l.tracked.Measured p).2 ?_
  refine (leaves_program p s).mono (fun e l ⟨w, ⟨n, hn⟩, hbench, _⟩ => ?_)
    fun b l ⟨past, ⟨n, hn⟩, _⟩ => ?_
  · have hw := ((allows_course hvars hports s n).of_error (hn n (Nat.le_refl n))).1
    unfold Lowering.tracked at hw ⊢
    rwa [hbench] at hw
  · exact ((allows_course hvars hports s n).of_ok (hn n (Nat.le_refl n))).1

end Declared

/-- **Every literal of a lowering is at least one bit wide, and no wider than the storage**, a
    declared variable or port, or a value of the graph: in every state between two operations, and
    in the state that is left, also by a fault. -/
theorem literals_sized (ht : p.Meets s t ∨ t = (p.reached s).tracked)
    (hvars : ∀ d ∈ p.vars, 1 ≤ d.ty.width) (hports : ∀ q ∈ p.ports, 1 ≤ q.ty.width)
    {c : Literal} (hc : t.HoldsLiteral c) :
    1 ≤ c.width ∧ (c.width ≤ storageBits ∨ (∃ d ∈ p.vars, c.width ≤ d.ty.width) ∨
      (∃ q ∈ p.ports, c.width ≤ q.ty.width) ∨
      ∃ v x, t.graph.value? v = some x ∧ c.width ≤ x.ty.width) := by
  have h : t.Measured p := by
    rcases ht with ht | rfl
    · exact measured_of_meets hvars hports ht
    · exact measured_reached hvars hports s
  cases hc with
  | operand value mem => exact h.graph.operands value mem
  | condition block mem cond => exact h.graph.conds block mem cond
  | definition recorded => exact h.tables.defs recorded

/-- A literal of 8 bits is stored into a variable of 200 bits, which goes out at a port. -/
def wideStore : Program where
  name := "wideStore"
  vars := [⟨⟨0⟩, "x", .unsigned 200, []⟩]
  ports := [⟨⟨0⟩, "o", .unsigned 200, .output⟩]
  body := [.assign ⟨0⟩ [] (.lit (.ofNat 5 (.unsigned 8))), .write ⟨0⟩ (.var ⟨0⟩)]

/-- The store makes a literal of 200 bits, which the write holds. -/
theorem holdsLiteral_wideStore :
    (wideStore.reached Preset.strict.settings).tracked.HoldsLiteral (.ofNat 5 (.unsigned 200)) := by
  have h : ((wideStore.reached Preset.strict.settings).bench.graph.value? ⟨0⟩).map Value.operands =
      some [.lit (.ofNat 5 (.unsigned 200))] := by decide +kernel
  obtain ⟨x, hx, hops⟩ := Option.map_eq_some_iff.1 h
  exact .operand hx (hops ▸ List.mem_singleton.2 rfl)

theorem literals_sized_wideStore :
    ∃ t, t = (wideStore.reached Preset.strict.settings).tracked ∧
      (∀ d ∈ wideStore.vars, 1 ≤ d.ty.width) ∧ (∀ q ∈ wideStore.ports, 1 ≤ q.ty.width) ∧
      t.HoldsLiteral (.ofNat 5 (.unsigned 200)) ∧
      1 ≤ (Literal.ofNat 5 (.unsigned 200)).width ∧
      ((Literal.ofNat 5 (.unsigned 200)).width ≤ storageBits ∨
      (∃ d ∈ wideStore.vars, (Literal.ofNat 5 (.unsigned 200)).width ≤ d.ty.width) ∨
      (∃ q ∈ wideStore.ports, (Literal.ofNat 5 (.unsigned 200)).width ≤ q.ty.width) ∨
      ∃ v x, t.graph.value? v = some x ∧
        (Literal.ofNat 5 (.unsigned 200)).width ≤ x.ty.width) :=
  ⟨_, rfl, by decide, by decide, holdsLiteral_wideStore,
    literals_sized (s := Preset.strict.settings) (.inr rfl) (by decide) (by decide)
      holdsLiteral_wideStore⟩

/-- **Some literals are wider than the storage**, and folding a slice reaches bits of them that the
    storage does not have: the shift overflows. -/
theorem literals_wideStore :
    ∃ c, (wideStore.reached Preset.strict.settings).tracked.HoldsLiteral c ∧
      storageBits < c.width ∧ (∃ r, fold (.slice 150 140) [c] (.unsigned 11) = some r) ∧
      foldOverflows (.slice 150 140) [c] (.unsigned 11) = true :=
  ⟨.ofNat 5 (.unsigned 200), holdsLiteral_wideStore, by decide, ⟨_, rfl⟩, rfl⟩

end Program

end BitFlow
