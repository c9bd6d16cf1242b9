import BitFlow.Proofs.Course.Lower

/-!
# More depth

A course that comes to an end at some depth comes to the same end at every greater one: depth only
says where a recursion is cut off. One step more of each recursion refines it (`Course.Refines`), by
induction on the depth, and the parts of a lowering are refined with the recursions that they use.

Main statements: `Course.refines_read`, `Course.refines_sealBlock` -- reads and seals;
`Program.course_of_le` -- whole lowerings.
-/

namespace BitFlow

/-! ## 1. Refinement -/

/-- Wherever the first course ends, the second one ends in the same way. -/
def Course.Refines {σ α : Type} (c d : Course σ α) : Prop :=
  ∀ s r, c.outcome s = some r → d.outcome s = some r

namespace Course

variable {σ α β : Type} {c d : Course σ α}

namespace Refines

theorem refl (c : Course σ α) : Refines c c := fun _ _ => id

theorem cut : Refines cut d := fun _ _ hr => by cases hr

theorem bind {f g : α → Course σ β} (h : Refines c d) (hf : ∀ a, Refines (f a) (g a)) :
    Refines (c >>= f) (d >>= g) := by
  intro s r hr
  rw [outcome_bind] at hr ⊢
  obtain ⟨r', hc, hr⟩ := Option.bind_eq_some_iff.1 hr
  rw [h s r' hc]
  cases r' with
  | ok a t => exact hf a t r hr
  | error e t => exact hr

/-- What would come after a fault does not. -/
theorem thrown {e : Fault} {f g : α → Course σ β} :
    Refines ((throw e : Course σ α) >>= f) (throw e >>= g) := by
  intro s r hr
  rw [outcome_bind] at hr ⊢
  exact hr

/-- What comes first is the same. -/
theorem after {f g : α → Course σ β} (hf : ∀ a, Refines (f a) (g a)) :
    Refines (c >>= f) (c >>= g) := .bind (.refl c) hf

theorem ite {b : Prop} [Decidable b] {c' d' : Course σ α} (h : b → Refines c d)
    (h' : ¬ b → Refines c' d') : Refines (if b then c else c') (if b then d else d') := by
  split
  · exact h ‹b›
  · exact h' ‹¬ b›

theorem forM {k k' : α → Course σ PUnit} (hk : ∀ a, Refines (k a) (k' a)) (as : List α) :
    Refines (as.forM k) (as.forM k') := by
  induction as with
  | nil => exact .refl _
  | cons a as ih => exact .bind (hk a) fun _ => ih

end Refines

/-! ## 2. Reads and seals -/

theorem follow_succ {g : Graph} (n : Nat) {o a : Operand} (h : g.follow n o = some a) :
    g.follow (n + 1) o = some a := by
  induction n generalizing o with
  | zero => cases h
  | succ n ih =>
    cases o with
    | lit c => exact h
    | undef ty => exact h
    | value v =>
      unfold Graph.follow at h ⊢
      cases hget : g.forwards.get? v with
      | none =>
        rw [hget] at h
        exact h
      | some next =>
        simp only [hget] at h ⊢
        split at h
        · rename_i hself
          rwa [if_pos hself]
        · rename_i hself
          rw [if_neg hself]
          exact ih h

theorem refines_resolve (n : Nat) (o : Operand) : Refines (resolve n o) (resolve (n + 1) o) := by
  intro s r hr
  unfold outcome resolve at hr ⊢
  cases hfollow : s.graph.follow n o with
  | none =>
    rw [hfollow] at hr
    cases hr
  | some a =>
    rw [follow_succ n hfollow]
    rw [hfollow] at hr
    exact hr

theorem refines_removeTrivial (n : Nat) (v : ValueId) :
    Refines (removeTrivial n v) (removeTrivial (n + 1) v) := by
  induction n generalizing v with
  | zero => exact .cut
  | succ n ih =>
    unfold removeTrivial
    refine .after fun x => .ite (fun _ => .after fun o? => ?_) fun _ => refines_resolve n _
    cases o? with
    | none => exact .refl _
    | some o =>
      refine .after fun former => .bind (.forM (fun u => ?_) former) fun _ => refines_resolve n o
      cases u with
      | branch b => exact .refl _
      | value u =>
        refine .after fun s => .ite (fun _ => .refl _) fun _ => .after fun y => ?_
        exact .ite (fun _ => .bind (ih u) fun _ => .refl _) fun _ => .refl _

/-- **Reading a variable** and the parts of a read. -/
theorem refines_read_parts (n : Nat) (x : VarId) :
    (∀ b, Refines (read n x b) (read (n + 1) x b)) ∧
      (∀ b, Refines (readThrough n x b) (readThrough (n + 1) x b)) ∧
      ∀ v, Refines (fill n x v) (fill (n + 1) x v) := by
  induction n with
  | zero => exact ⟨fun _ => .cut, fun _ => .cut, fun _ => .cut⟩
  | succ n ih =>
    obtain ⟨hread, hthrough, hfill⟩ := ih
    refine ⟨fun b => ?_, fun b => ?_, fun v => ?_⟩
    · unfold read
      refine .after fun s => ?_
      cases s.reaching.definition? x b with
      | some o => exact refines_resolve n o
      | none =>
        exact .bind (hthrough b) fun o => .bind (refines_resolve n o) fun _ => .refl _
    · unfold readThrough
      refine .after fun d => .after fun y => .ite (fun _ => ?_) fun _ => .refl _
      rcases y.preds with - | ⟨q, - | ⟨q', qs⟩⟩
      · exact .refl _
      · exact hread q
      · exact .after fun v => .after fun _ => hfill v
    · unfold fill
      refine .after fun y => ?_
      cases y.block with
      | none => exact .refl _
      | some b =>
        refine .after fun z => .after fun _ => .bind (.forM (fun q => ?_) z.preds) fun _ => ?_
        · exact .bind (hread q) fun _ => .refl _
        · exact .after fun _ => refines_removeTrivial n v

theorem refines_read (n : Nat) (x : VarId) (b : BlockId) :
    Refines (read n x b) (read (n + 1) x b) := (refines_read_parts n x).1 b

theorem refines_drain (n : Nat) (b : BlockId) : Refines (drain n b) (drain (n + 1) b) := by
  induction n with
  | zero => exact .cut
  | succ n ih =>
    unfold drain
    refine .after fun s => ?_
    cases s.reaching.pending.image b with
    | nil => exact .refl _
    | cons w ws =>
      exact .after fun _ => .bind ((refines_read_parts n w.1).2.2 w.2) fun _ => .after fun _ => ih

/-- **Sealing a block.** -/
theorem refines_sealBlock (n : Nat) (b : BlockId) :
    Refines (sealBlock n b) (sealBlock (n + 1) b) :=
  .after fun _ => .ite (fun _ => .thrown) fun _ => .bind (refines_drain n b) fun _ => .refl _

end Course

/-! ## 3. Expressions and writes -/

namespace Watch

open Course (Refines)

variable {α : Type} {p : Program} {n : Nat}

theorem refines_track {c d : Course Tracked α} (h : Refines c d) :
    Refines (track c) (track d) := by
  intro w r hr
  unfold Course.outcome track at hr ⊢
  cases hc : c.outcome w.now.tracked with
  | none =>
    rw [hc] at hr
    cases hr
  | some r' =>
    rw [h _ r' hc]
    rw [hc] at hr
    exact hr

theorem refines_sealBlock (n : Nat) (b : BlockId) :
    Refines (track (Course.sealBlock n b)) (track (Course.sealBlock (n + 1) b)) :=
  refines_track (Course.refines_sealBlock n b)

theorem refines_variableRead (n : Nat) (x : VarId) (site : String) :
    Refines (variableRead n x site) (variableRead (n + 1) x site) :=
  .after fun _ => .ite (fun _ => .thrown) fun _ => .after fun _ =>
    refines_track (Course.refines_read n x _)

mutual

/-- **Lowering an expression.** -/
theorem refines_lowerExpr (n : Nat) (e : Expr) : Refines (lowerExpr n e) (lowerExpr (n + 1) e) := by
  match e with
  | .lit c => exact .refl _
  | .var x => exact refines_variableRead n x _
  | .unary o arg => exact .bind (refines_lowerExpr n arg) fun _ => .refl _
  | .binary o lhs rhs =>
    exact .bind (refines_lowerExpr n lhs) fun _ => .bind (refines_lowerExpr n rhs) fun _ => .refl _
  | .compare o lhs rhs =>
    exact .bind (refines_lowerExpr n lhs) fun _ => .bind (refines_lowerExpr n rhs) fun _ => .refl _
  | .concat parts => exact .bind (refines_lowerExprs n parts) fun _ => .refl _
  | .bit base pos =>
    exact .after fun _ => .bind (refines_lowerExpr n base) fun _ =>
      .bind (refines_lowerExpr n pos) fun _ => .refl _
  | .range base msb lsb =>
    exact .after fun _ => .bind (refines_lowerExpr n base) fun _ => .refl _
  | .ternary cond yes no =>
    exact .bind (refines_lowerExpr n cond) fun _ => .after fun _ =>
      .bind (refines_lowerExpr n yes) fun _ => .bind (refines_lowerExpr n no) fun _ => .refl _
  | .cast arg ty => exact .bind (refines_lowerExpr n arg) fun _ => .refl _

theorem refines_lowerExprs (n : Nat) (es : List Expr) :
    Refines (lowerExprs n es) (lowerExprs (n + 1) es) := by
  match es with
  | [] => exact .refl _
  | e :: es =>
    exact .bind (refines_lowerExpr n e) fun _ => .bind (refines_lowerExprs n es) fun _ => .refl _

end

theorem refines_lowerCondition (n : Nat) (e : Expr) :
    Refines (lowerCondition n e) (lowerCondition (n + 1) e) :=
  .bind (refines_lowerExpr n e) fun _ => .refl _

theorem refines_splice (n : Nat) (d : Variable) (r : BitRange) (b : BlockId) (o : Operand)
    (site : String) : Refines (splice n d r b o site) (splice (n + 1) d r b o site) := by
  unfold splice
  refine .ite (fun _ => .thrown) fun _ => .ite (fun _ => .thrown) fun _ => .after fun found => ?_
  refine .ite (fun _ => .thrown) fun _ => .after fun w => .ite (fun _ => .thrown) fun _ => ?_
  exact .bind (refines_track (Course.refines_read n _ b)) fun _ => .refl _

/-- **Writing a variable.** -/
theorem refines_write (n : Nat) (x : VarId) (ranges : List BitRange) (b : BlockId) (o : Operand) :
    Refines (write n x ranges b o) (write (n + 1) x ranges b o) := by
  refine .after fun d => ?_
  rcases ranges with - | ⟨r, - | ⟨r', ranges⟩⟩
  · exact .refl _
  · exact .bind (refines_splice n d r b o _) fun _ => .refl _
  · exact .refl _

/-! ## 4. Statements -/

theorem refines_store (n : Nat) (x : VarId) (ranges : List BitRange) (b : BlockId) (o : Operand) :
    Refines (do discard (write n x ranges b o); pure b)
      (do discard (write (n + 1) x ranges b o); pure b) :=
  .bind (.bind (refines_write n x ranges b o) fun _ => .refl _) fun _ => .refl _

theorem refines_assign (n : Nat) (x : VarId) (ss : List Selector) (e : Expr) (b : BlockId) :
    Refines (assign n x ss e b) (assign (n + 1) x ss e b) := by
  unfold assign
  refine .after fun _ => .after fun d => .ite (fun _ => .thrown) fun _ => .after fun ranges => ?_
  exact .bind (refines_lowerExpr n e) fun o => .after fun o => refines_store n x ranges b o

theorem refines_portRead (n : Nat) (q : PortId) (x : VarId) (b : BlockId) :
    Refines (portRead n p q x b) (portRead (n + 1) p q x b) := by
  unfold portRead
  refine .after fun _ => .after fun d => .after fun port => .ite (fun _ => .thrown) fun _ => ?_
  exact .after fun o => .after fun o => refines_store n x [] b o

theorem refines_portWrite (n : Nat) (q : PortId) (e : Expr) (b : BlockId) :
    Refines (portWrite n p q e b) (portWrite (n + 1) p q e b) := by
  unfold portWrite
  exact .after fun _ => .after fun port => .bind (refines_lowerExpr n e) fun o => .refl _

theorem refines_deadBlock (n : Nat) : Refines (deadBlock n) (deadBlock (n + 1)) :=
  .after fun _ => .after fun b => .bind (refines_sealBlock n b) fun _ => .refl _

theorem refines_breakLoop (n : Nat) (b : BlockId) : Refines (breakLoop n b) (breakLoop (n + 1) b) :=
  .after fun _ => .after fun _ => .ite (fun _ => .thrown) fun _ =>
    .ite (fun _ => .after fun _ => refines_deadBlock n) fun _ => refines_deadBlock n

theorem refines_sealJoin (n : Nat) (join : BlockId) :
    Refines (sealJoin n join) (sealJoin (n + 1) join) :=
  .after fun _ => .ite (fun _ => .after fun _ => refines_sealBlock n join) fun _ =>
    refines_sealBlock n join

theorem refines_loopTest (n : Nat) (label : String) (cond : Expr) (known : Option Bool)
    (head first : BlockId) : Refines (loopTest n label cond known head first)
      (loopTest (n + 1) label cond known head first) :=
  .ite (fun _ => .refl _) fun _ => .after fun _ => .after fun _ =>
    .bind (refines_lowerCondition n cond) fun _ => .refl _

theorem refines_loopExit (n : Nat) (f : LoopFrame) (exit? : Option BlockId) :
    Refines (loopExit n f exit?) (loopExit (n + 1) f exit?) := by
  cases exit? with
  | some exit => exact .after fun _ => .bind (refines_sealBlock n f.head) fun _ => .refl _
  | none => exact .bind (refines_sealBlock n f.head) fun _ => .refl _

/-- **Statements one deeper** refine statements at the depth `n`. -/
structure Deepens (p : Program) (n : Nat) : Prop where
  stmt : ∀ s b, Refines (lowerStmt n p s b) (lowerStmt (n + 1) p s b)
  stmts : ∀ ss b, Refines (lowerStmts n p ss b) (lowerStmts (n + 1) p ss b)
  arms : ∀ label b join i arms,
    Refines (lowerArms n p label b join i arms) (lowerArms (n + 1) p label b join i arms)
  arm : ∀ label b join cond body,
    Refines (arm n p label b join cond body) (arm (n + 1) p label b join cond body)
  loop : ∀ construct cond step body b,
    Refines (loop n p construct cond step body b) (loop (n + 1) p construct cond step body b)
  step : ∀ b, Refines (lowerStep n p b) (lowerStep (n + 1) p b)
  next : ∀ b, Refines (continueLoop n p b) (continueLoop (n + 1) p b)

namespace Deepens

variable (h : Deepens p n)

include h

theorem stmt_succ (s : Stmt) (b : BlockId) :
    Refines (lowerStmt (n + 1) p s b) (lowerStmt (n + 2) p s b) := by
  unfold lowerStmt
  cases s with
  | assign x ss e => exact refines_assign n x ss e b
  | read q x => exact refines_portRead n q x b
  | write q e => exact refines_portWrite n q e b
  | branch arms otherwise =>
    have hjoin : ∀ join, Refines (do sealJoin n join; pure join)
        (do sealJoin (n + 1) join; pure join) := fun join =>
      .bind (refines_sealJoin n join) fun _ => .refl _
    refine .after fun label => .after fun join => .bind (h.arms label b join 0 arms) fun closed => ?_
    exact .ite (fun _ => .bind (h.arm _ b join none otherwise) fun _ => hjoin join) fun _ =>
      hjoin join
  | whileLoop cond body => exact h.loop "while" cond [] body b
  | forLoop init cond step body =>
    exact .bind (h.stmts init b) fun start => h.loop "for" cond step body start
  | breakLoop => exact refines_breakLoop n b
  | continueLoop => exact h.next b

theorem stmts_succ (ss : List Stmt) (b : BlockId) :
    Refines (lowerStmts (n + 1) p ss b) (lowerStmts (n + 2) p ss b) := by
  unfold lowerStmts
  cases ss with
  | nil => exact .refl _
  | cons s ss => exact .bind (h.stmt s b) fun next => h.stmts ss next

theorem arms_succ (label : String) (b join : BlockId) (i : Nat) (arms : List (Expr × List Stmt)) :
    Refines (lowerArms (n + 1) p label b join i arms)
      (lowerArms (n + 2) p label b join i arms) := by
  unfold lowerArms
  rcases arms with - | ⟨⟨cond, body⟩, rest⟩
  · exact .refl _
  · refine .after fun known => .ite (fun _ => h.arms _ _ _ _ rest) fun _ => ?_
    have hlast : ∀ test, Refines (do
          Watch.arm n p (label ++ ".arm" ++ toString i) b join test body
          if known = some true then pure true
          else lowerArms n p label b join (i + 1) rest)
        (do
          Watch.arm (n + 1) p (label ++ ".arm" ++ toString i) b join test body
          if known = some true then pure true
          else lowerArms (n + 1) p label b join (i + 1) rest) := fun test =>
      .bind (h.arm _ b join test body) fun _ =>
        .ite (fun _ => .refl _) fun _ => h.arms _ _ _ _ rest
    refine .ite (fun _ => .after hlast) fun _ => .after fun _ => ?_
    exact .bind (refines_lowerCondition n cond) fun c => .after hlast

theorem arm_succ (label : String) (b join : BlockId) (cond : Option Operand) (body : List Stmt) :
    Refines (Watch.arm (n + 1) p label b join cond body)
      (Watch.arm (n + 2) p label b join cond body) := by
  unfold Watch.arm
  refine .ite (fun _ => .refl _) fun _ => .after fun first => .after fun _ => ?_
  exact .bind (refines_sealBlock n first) fun _ => .bind (h.stmts body first) fun _ => .refl _

theorem loop_succ (construct : String) (cond : Expr) (step body : List Stmt) (b : BlockId) :
    Refines (Watch.loop (n + 1) p construct cond step body b)
      (Watch.loop (n + 2) p construct cond step body b) := by
  unfold Watch.loop
  refine .after fun known => .ite (fun _ => .refl _) fun _ => .after fun label => ?_
  refine .after fun head => .after fun first => .after fun _ => ?_
  refine .bind (refines_loopTest n label cond known head first) fun exit? => ?_
  refine .bind (refines_sealBlock n first) fun _ => .after fun _ => ?_
  refine .bind (h.stmts body first) fun last => .bind (h.step last) fun last => ?_
  refine .after fun f => .after fun _ => .bind (refines_loopExit n f exit?) fun exit => ?_
  exact .bind (refines_sealBlock n exit) fun _ => .refl _

theorem step_succ (b : BlockId) : Refines (lowerStep (n + 1) p b) (lowerStep (n + 2) p b) := by
  unfold lowerStep
  refine .after fun w => ?_
  cases w.now.loops with
  | nil => exact .refl _
  | cons f rest =>
    refine .ite (fun _ => .refl _) fun _ => .after fun _ => ?_
    exact .bind (h.stmts f.step b) fun _ => .refl _

theorem next_succ (b : BlockId) :
    Refines (continueLoop (n + 1) p b) (continueLoop (n + 2) p b) := by
  unfold continueLoop
  refine .after fun l => ?_
  cases l.loops with
  | nil => exact .refl _
  | cons f rest => exact .bind (h.step b) fun _ => .after fun _ => refines_deadBlock n

end Deepens

/-- **One depth more changes no statement that ends.** -/
theorem deepens (p : Program) (n : Nat) : Deepens p n := by
  induction n with
  | zero =>
    exact ⟨fun _ _ => .cut, fun _ _ => .cut, fun _ _ _ _ _ => .cut, fun _ _ _ _ _ => .cut,
      fun _ _ _ _ _ => .cut, fun _ => .cut, fun _ => .cut⟩
  | succ n ih =>
    exact ⟨ih.stmt_succ, ih.stmts_succ, ih.arms_succ, ih.arm_succ, ih.loop_succ, ih.step_succ,
      ih.next_succ⟩

theorem refines_program (n : Nat) (p : Program) : Refines (program n p) (program (n + 1) p) := by
  have hbody : ∀ entry, Refines (do
        let exit ← lowerStmts n p p.body entry
        build (Build.onGraph (modify fun g => { g with exit := some exit }))
        pure exit)
      (do
        let exit ← lowerStmts (n + 1) p p.body entry
        build (Build.onGraph (modify fun g => { g with exit := some exit }))
        pure exit) := fun entry => .bind ((deepens p n).stmts p.body entry) fun _ => .refl _
  exact .after fun w => .after fun y =>
    .ite (fun _ => .bind (refines_sealBlock n _) fun _ => hbody _) fun _ => hbody _

end Watch

/-- **What a lowering comes to at some depth it comes to at every greater one.** -/
theorem Program.course_of_le {p : Program} {s : Settings} {n m : Nat} (hnm : n ≤ m)
    {r : EStateM.Result Fault Watched BlockId} (h : p.course s n = some r) :
    p.course s m = some r := by
  induction hnm with
  | refl => exact h
  | step _ ih => exact Watch.refines_program _ p _ r ih

end BitFlow
