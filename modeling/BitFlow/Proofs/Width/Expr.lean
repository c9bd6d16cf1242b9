import BitFlow.Proofs.Course.Lower
import BitFlow.Proofs.Width.Build

/-!
# How wide literals get in expressions

A lowering is watched here at one depth, which need not be enough for it. Whatever it has noted
until it is cut off, ends or stops, no operand is of a size that `Graph.Sizes` does not allow, and
where the arithmetic of an operation overflows something is wider than the storage -- or the
operation is the refusal of a literal of the source.

Main statements: `Watch.bounds_lowerExpr`, `Watch.bounds_write` -- expressions and writes.
-/

namespace BitFlow

/-! ## 1. Notes -/

/-- A literal of the source is refused as too wide. -/
def Fault.WideLiteral (e : Fault) : Prop := ∃ limit site, e = .unsupported (.wideLiteral limit) site

/-- **A note in order**: all operands are of the right size, and the arithmetic overflows at most
    where something is wider than the storage, or where `E` holds. -/
structure Note.Fit (p : Program) (E : Prop) (n : Note) : Prop where
  measured : n.state.Measured p
  wide : n.overflows = true → n.state.graph.Wide p ∨ E

/-- **The watched lowering has grown**, and what it has noted since is in order. -/
structure Watched.Leads (p : Program) (E : Prop) (w w' : Watched) : Prop where
  grows : w.now.tracked.Grows p w'.now.tracked
  past : ∀ n ∈ w'.past, n ∈ w.past ∨ n.Fit p E

namespace Watched.Leads

variable {p : Program} {E : Prop} {w w₁ w₂ : Watched}

theorem refl (h : w.now.tracked.Measured p) : w.Leads p E w := ⟨.refl h, fun _ => .inl⟩

theorem trans (h : w.Leads p False w₁) (h' : w₁.Leads p E w₂) : w.Leads p E w₂ := by
  refine ⟨h.grows.trans h'.grows, fun n hn => ?_⟩
  rcases h'.past n hn with hn | hn
  · exact (h.past n hn).imp_right fun hfit => ⟨hfit.measured, fun ho => (hfit.wide ho).imp_right
      False.elim⟩
  · exact .inr hn

/-- An operation has been noted. -/
theorem noted (h : w.now.tracked.Measured p) {overflows : Bool} {l : Lowering}
    (hl : w.now.tracked.Grows p l.tracked)
    (ho : overflows = true → w.now.bench.graph.Wide p ∨ E) :
    w.Leads p E (Watch.noted w overflows l) :=
  ⟨hl, List.forall_mem_cons.2 ⟨.inr ⟨h, ho⟩, fun _ => .inl⟩⟩

end Watched.Leads

namespace Watch

open BitFlow.Graph BitFlow.Build

variable {p : Program} {w : Watched} {α β : Type} {o : Operand} {site : String}

/-! ## 2. Courses at one depth -/

/-- **The course makes only operands of the right size**, its answer among them, and all that it
    notes is in order. -/
abbrev Bounds (p : Program) (w : Watched) (c : Watch α) (A : Graph → α → Prop) : Prop :=
  Course.Allows c w (fun e w' => w.Leads p e.WideLiteral w')
    fun a w' => w.Leads p False w' ∧ A w'.now.bench.graph a

namespace Bounds

variable {c : Watch α} {A : Graph → α → Prop} {B : Graph → β → Prop}

theorem cut : Bounds p w Course.cut A := trivial

theorem pure (h : w.now.tracked.Measured p) {a : α} (ha : A w.now.bench.graph a) :
    Bounds p w (pure a) A := ⟨.refl h, ha⟩

theorem throw (h : w.now.tracked.Measured p) (e : Fault) : Bounds p w (throw e : Watch α) A :=
  Watched.Leads.refl h

/-- **One course after the other.** -/
theorem bind {f : α → Watch β} (h : Bounds p w c A)
    (hf : ∀ a w', w.now.tracked.Grows p w'.now.tracked → A w'.now.bench.graph a →
      Bounds p w' (f a) B) : Bounds p w (c >>= f) B :=
  Course.Allows.seq h fun a w' ⟨hw, ha⟩ => (hf a w' hw.grows ha).mono
    (fun _ _ hw' => hw.trans hw') fun _ _ ⟨hw', hb⟩ => ⟨hw.trans hw', hb⟩

theorem look {f : Watched → Watch α} (h : Bounds p w (f w) A) : Bounds p w (get >>= f) A :=
  Course.Allows.seq (c := get) (P := fun a w' => a = w ∧ w' = w) ⟨rfl, rfl⟩
    fun a w' ⟨ha, hw⟩ => by
      rw [ha, hw]
      exact h

theorem ite {b : Prop} [Decidable b] {d : Watch α} (h : b → Bounds p w c A)
    (h' : ¬ b → Bounds p w d A) : Bounds p w (if b then c else d) A := by
  split
  · exact h ‹b›
  · exact h' ‹¬ b›

theorem discard (h : Bounds p w c A) : Bounds p w (discard c) fun _ _ => True :=
  Course.Allows.seq (Q := fun _ w' => w.Leads p False w' ∧ True) h
    fun _ _ ⟨hw, _⟩ => ⟨hw, trivial⟩

/-- An operation is noted and done. -/
theorem opWith (h : w.now.tracked.Measured p) {test : Lowering → Bool} {x : Lower α}
    (hx : Leaves x w.now
      (fun e l => w.now.tracked.Grows p l.tracked ∧
        (test w.now = true → w.now.bench.graph.Wide p ∨ e.WideLiteral))
      fun a l => w.now.tracked.Grows p l.tracked ∧
        (test w.now = true → w.now.bench.graph.Wide p) ∧ A l.bench.graph a) :
    Bounds p w (opWith test x) A := by
  unfold Leaves at hx
  unfold Bounds Course.Allows Course.outcome Watch.opWith
  cases hrun : x.run w.now with
  | ok a l =>
    rw [hrun] at hx
    obtain ⟨hl, ho, ha⟩ := hx
    exact ⟨.noted h hl fun hover => .inl (ho hover), ha⟩
  | error e l =>
    rw [hrun] at hx
    exact .noted h hx.1 hx.2

/-- **An operation that makes only operands of the right size.** -/
theorem op (h : w.now.tracked.Measured p) {x : Lower α} (hx : Lower.Bounds p w.now x A) :
    Bounds p w (op x) A :=
  .opWith h (Leaves.mono hx (fun _ _ hl => ⟨hl, fun ho => by cases ho⟩)
    fun _ _ ⟨hl, ha⟩ => ⟨hl, fun ho => (by cases ho), ha⟩)

/-- **An operation on the bench** whose arithmetic overflows only where something is wide. -/
theorem compute (h : w.now.tracked.Measured p) {test : Graph → Bool} {x : Build α}
    (ho : test w.now.bench.graph = true → w.now.bench.graph.Wide p)
    (hx : Builds p w.now.bench x A) : Bounds p w (compute test x) A :=
  .opWith h (Leaves.mono (Lower.bounds_build hx) (fun _ _ hl => ⟨hl, fun hover => .inl (ho hover)⟩)
    fun _ _ ⟨hl, ha⟩ => ⟨hl, ho, ha⟩)

/-- An operation on the bench that never overflows. -/
theorem build (h : w.now.tracked.Measured p) {x : Build α} (hx : Builds p w.now.bench x A) :
    Bounds p w (build x) A := .compute h (fun ho => by cases ho) hx

/-- What is done at the cursor. -/
theorem emit (h : w.now.tracked.Measured p) {test : Graph → Bool} {x : Emit α}
    (ho : test w.now.bench.graph = true → w.now.bench.graph.Wide p)
    (hx : w.now.bench.graph.Measured p →
      Emit.Emits p ⟨w.now.bench.graph, w.now.bench.cursor⟩ x A) :
    Bounds p w (Watch.compute test (liftM x)) A := .compute h ho (builds_emit h hx)

/-- What is done to the graph. -/
theorem edit (h : w.now.tracked.Measured p) {x : Edit α} {B : α → Prop}
    (hx : Yields (Graph.Bears (w.now.bench.graph.Sized p) · w.now.bench.graph) B x) :
    Bounds p w (Watch.build (liftM x)) fun _ => B := .build h (builds_edit h hx)

/-- What recurs makes no operands of its own. -/
theorem track (h : w.now.tracked.Measured p) {c : Course Tracked α} {B : α → Prop}
    (hc : Course.Preserves (Tracked.Bears (w.now.bench.graph.Sized p) w.now.bench.graph) B c)
    (hA : ∀ a g, w.now.bench.graph.KeepsTypes g → B a → A g a) : Bounds p w (track c) A := by
  have hc := hc w.now.tracked h
  unfold Course.Allows at hc
  unfold Bounds Course.Allows Course.outcome Watch.track
  match hrun : c.outcome w.now.tracked with
  | none => trivial
  | some (.ok a t) =>
    rw [hrun] at hc
    have hgrows : w.now.tracked.Grows p t := .of_bears hc.1
    exact ⟨.noted h hgrows fun ho => (by cases ho), hA a t.graph hgrows.keeps hc.2⟩
  | some (.error e t) =>
    rw [hrun] at hc
    have hgrows : w.now.tracked.Grows p t := .of_bears hc
    exact .noted h hgrows fun ho => by cases ho

end Bounds

/-! ## 3. Operations -/

theorem bounds_declaration (h : w.now.tracked.Measured p) (x : VarId) :
    Bounds p w (build (Track.declaration x)) fun g d => g.Sizes p d.ty :=
  .build h (builds_declaration h x)

theorem bounds_read (h : w.now.tracked.Measured p) (n : Nat) (x : VarId) (b : BlockId) :
    Bounds p w (track (Course.read n x b)) (Sized p) :=
  .track h (Course.preserves_read (fun _ => trivial) n x b) fun _ _ hk ho => ho.mono hk

theorem bounds_variableRead (h : w.now.tracked.Measured p) (n : Nat) (x : VarId) :
    Bounds p w (variableRead n x site) (Sized p) := by
  refine .bind (bounds_declaration h x) fun d w₁ h₁ _ => ?_
  refine .ite (fun _ => .throw h₁.measured _) fun _ => ?_
  exact .look (bounds_read h₁.measured n x _)

/-- **A literal of the source** is one that the storage holds, or it is refused. -/
theorem bounds_literal (h : w.now.tracked.Measured p) (c : Literal) :
    Bounds p w (compute (fun _ => c.resizeOverflows) (literal c site)) (Sized p) := by
  have hleaves : Leaves (literal c site) w.now.bench
      (fun e s => s = w.now.bench ∧ e.WideLiteral)
      fun o s => s = w.now.bench ∧ o = .lit c ∧ c.ty.holdsLiterals = true := by
    unfold literal
    rw [Leaves.bind_iff, Leaves.get_iff]
    dsimp only
    split
    · rename_i hc
      exact ⟨rfl, rfl, (Bool.and_eq_true _ _).mp hc |>.1⟩
    · exact ⟨rfl, _, _, rfl⟩
  refine .opWith h ((Leaves.focus_iff _).2 (hleaves.mono (fun e s ⟨hs, he⟩ => ?_)
    fun o s ⟨hs, ho, hc⟩ => ?_))
  · subst hs
    exact ⟨.refl h, fun _ => .inr he⟩
  · subst hs ho
    refine ⟨.refl h, fun hover => ?_, sizes_of_holdsLiterals hc⟩
    rw [Literal.not_held_of_resizeOverflows hover] at hc
    cases hc

section Operands

variable {a b : Operand}

theorem bounds_coerce (h : w.now.tracked.Measured p) (ha : w.now.bench.graph.Sized p a)
    (hb : w.now.bench.graph.Sized p b) :
    Bounds p w (coerce a b site) fun g r => g.Sized p r.1 ∧ g.Sized p r.2 :=
  .emit h (fun ho => wide_of_unheld (Emit.forall_mem_pair ha hb) (Emit.unheld_of_coerceOverflows ho))
    fun hg => Emit.emits_coerce hg ha hb

theorem bounds_align (h : w.now.tracked.Measured p) (op : Binary)
    (ha : w.now.bench.graph.Sized p a) (hb : w.now.bench.graph.Sized p b) :
    Bounds p w (align op a b site) fun g r => g.Sized p r.1 ∧ g.Sized p r.2 :=
  .ite (fun _ => .pure h ⟨ha, hb⟩) fun _ => bounds_coerce h ha hb

theorem bounds_coerceTo (h : w.now.tracked.Measured p) (ha : w.now.bench.graph.Sized p a) {ty : Ty}
    (hty : w.now.bench.graph.Sizes p ty) : Bounds p w (coerceTo a ty site) (Sized p) :=
  .emit h (fun ho => wide_of_unheld (List.forall_mem_singleton.2 ha)
    (Emit.unheld_of_coerceToOverflows ho)) fun hg => Emit.emits_coerceTo hg ha hty

theorem bounds_condition (h : w.now.tracked.Measured p) (ha : w.now.bench.graph.Sized p a) :
    Bounds p w (condition a site) (Sized p) :=
  .emit h (fun ho => wide_of_unheld (List.forall_mem_singleton.2 ha)
    (Emit.unheld_of_conditionOverflows ho)) fun hg => Emit.emits_condition hg ha

theorem bounds_slice (h : w.now.tracked.Measured p) (ha : w.now.bench.graph.Sized p a)
    (msb lsb : Nat) : Bounds p w (slice a msb lsb site) (Sized p) :=
  .emit h (fun ho => wide_of_unheld (List.forall_mem_singleton.2 ha)
    (Emit.unheld_of_sliceOverflows ho)) fun hg => Emit.emits_slice hg ha msb lsb

theorem bounds_cast (h : w.now.tracked.Measured p) (ha : w.now.bench.graph.Sized p a) (ty : Ty) :
    Bounds p w (cast a ty site) (Sized p) :=
  .emit h (fun ho => wide_of_unheld (List.forall_mem_singleton.2 ha)
    (Emit.unheld_of_castOverflows ho)) fun hg => Emit.emits_cast hg ha ty

end Operands

/-- An operator without a test for overflow. -/
theorem bounds_emit (h : w.now.tracked.Measured p) {x : Emit α} {A : Graph → α → Prop}
    (hx : w.now.bench.graph.Measured p →
      Emit.Emits p ⟨w.now.bench.graph, w.now.bench.cursor⟩ x A) :
    Bounds p w (build (liftM x)) A := .emit h (fun ho => by cases ho) hx

/-! ## 4. Expressions -/

mutual

/-- **Lowering an expression** makes no operand of another size. -/
theorem bounds_lowerExpr {p : Program} (n : Nat) (e : Expr) {w : Watched}
    (h : w.now.tracked.Measured p) : Bounds p w (lowerExpr n e) (Sized p) := by
  match e with
  | .lit c =>
    unfold lowerExpr
    exact bounds_literal h c
  | .var x =>
    unfold lowerExpr
    exact bounds_variableRead h n x
  | .unary op arg =>
    unfold lowerExpr
    refine .bind (bounds_lowerExpr n arg h) fun a w₁ h₁ ha => ?_
    exact bounds_emit h₁.measured fun hg => Emit.emits_unary hg ha op
  | .binary op lhs rhs =>
    unfold lowerExpr
    refine .bind (bounds_lowerExpr n lhs h) fun a w₁ h₁ ha => ?_
    refine .bind (bounds_lowerExpr n rhs h₁.measured) fun b w₂ h₂ hb => ?_
    refine .bind (bounds_align h₂.measured op (ha.mono h₂.keeps) hb) fun r w₃ h₃ hr => ?_
    exact .emit h₃.measured (fun ho => wide_of_unheld (Emit.forall_mem_pair hr.1 hr.2)
      (Emit.unheld_of_binaryOverflows ho)) fun hg => Emit.emits_binary hg hr.1 hr.2 op
  | .compare op lhs rhs =>
    unfold lowerExpr
    refine .bind (bounds_lowerExpr n lhs h) fun a w₁ h₁ ha => ?_
    refine .bind (bounds_lowerExpr n rhs h₁.measured) fun b w₂ h₂ hb => ?_
    refine .bind (bounds_coerce h₂.measured (ha.mono h₂.keeps) hb) fun r w₃ h₃ hr => ?_
    exact .emit h₃.measured (fun ho => wide_of_unheld (Emit.forall_mem_pair hr.1 hr.2)
      (Emit.unheld_of_comparisonOverflows ho)) fun hg => Emit.emits_compare hg hr.1 hr.2 op
  | .concat parts =>
    unfold lowerExpr
    refine .bind (bounds_lowerExprs n parts h) fun os w₁ h₁ hos => ?_
    exact bounds_emit h₁.measured fun hg => Emit.emits_concat hg hos
  | .bit base pos =>
    unfold lowerExpr
    refine .bind (.build h (builds_refuseArrayBase h base)) fun _ w₁ h₁ _ => ?_
    refine .bind (bounds_lowerExpr n base h₁.measured) fun a w₂ h₂ ha => ?_
    refine .bind (bounds_lowerExpr n pos h₂.measured) fun k w₃ h₃ hk => ?_
    have ha := ha.mono h₃.keeps
    exact .emit h₃.measured (fun ho => wide_of_unheld (Emit.forall_mem_pair ha hk)
      (Emit.unheld_of_indexOverflows ho)) fun hg => Emit.emits_index hg ha hk
  | .range base msb lsb =>
    unfold lowerExpr
    refine .bind (.build h (builds_refuseArrayBase h base)) fun _ w₁ h₁ _ => ?_
    refine .bind (bounds_lowerExpr n base h₁.measured) fun a w₂ h₂ ha => ?_
    refine .bind (.build h₂.measured (builds_bound h₂.measured msb)) fun hi w₃ h₃ _ => ?_
    refine .bind (.build h₃.measured (builds_bound h₃.measured lsb)) fun lo w₄ h₄ _ => ?_
    exact bounds_slice h₄.measured ((ha.mono h₃.keeps).mono h₄.keeps) hi lo
  | .ternary cond yes no =>
    unfold lowerExpr
    refine .bind (bounds_lowerExpr n cond h) fun c w₁ h₁ hc => ?_
    refine .bind (bounds_condition h₁.measured hc) fun c w₂ h₂ hc => ?_
    refine .bind (bounds_lowerExpr n yes h₂.measured) fun a w₃ h₃ ha => ?_
    refine .bind (bounds_lowerExpr n no h₃.measured) fun b w₄ h₄ hb => ?_
    refine .bind (bounds_coerce h₄.measured (ha.mono h₄.keeps) hb) fun r w₅ h₅ hr => ?_
    have hc := ((hc.mono h₃.keeps).mono h₄.keeps).mono h₅.keeps
    exact bounds_emit h₅.measured fun hg => Emit.emits_select hg hc hr.1 hr.2
  | .cast arg ty =>
    unfold lowerExpr
    refine .bind (bounds_lowerExpr n arg h) fun a w₁ h₁ ha => ?_
    exact bounds_cast h₁.measured ha ty

theorem bounds_lowerExprs {p : Program} (n : Nat) (es : List Expr) {w : Watched}
    (h : w.now.tracked.Measured p) :
    Bounds p w (lowerExprs n es) fun g os => ∀ o ∈ os, g.Sized p o := by
  match es with
  | [] =>
    unfold lowerExprs
    exact .pure h fun o ho => by cases ho
  | e :: es =>
    unfold lowerExprs
    refine .bind (bounds_lowerExpr n e h) fun o w₁ h₁ ho => ?_
    refine .bind (bounds_lowerExprs n es h₁.measured) fun os w₂ h₂ hos => ?_
    exact .pure h₂.measured (List.forall_mem_cons.2 ⟨ho.mono h₂.keeps, hos⟩)

end

theorem bounds_lowerCondition (h : w.now.tracked.Measured p) (n : Nat) (e : Expr) :
    Bounds p w (lowerCondition n e) (Sized p) :=
  .bind (bounds_lowerExpr n e h) fun _ _ h₁ ho => bounds_condition h₁.measured ho

/-! ## 5. Writes -/

/-- A part of the old content, if there is one. -/
theorem bounds_sliceIf (h : w.now.tracked.Measured p) (ho : w.now.bench.graph.Sized p o) {c : Prop}
    [Decidable c] {msb lsb : Nat} {A : Graph → α → Prop} {f : List Operand → Watch α}
    (hf : ∀ os w', w.now.tracked.Grows p w'.now.tracked →
      (∀ a ∈ os, w'.now.bench.graph.Sized p a) → Bounds p w' (f os) A) :
    Bounds p w (if c then do
        let a ← slice o msb lsb site
        let os ← pure [a]
        f os
      else do
        let os ← pure []
        f os) A := by
  refine .ite (fun _ => ?_) fun _ => hf [] w (.refl h) fun a ha => by cases ha
  refine .bind (bounds_slice h ho msb lsb) fun a w₁ h₁ ha => ?_
  exact hf [a] w₁ h₁ (List.forall_mem_singleton.2 ha)

theorem bounds_splice (h : w.now.tracked.Measured p) (n : Nat) (d : Variable) (r : BitRange)
    (b : BlockId) (ho : w.now.bench.graph.Sized p o) :
    Bounds p w (splice n d r b o site) (Sized p) := by
  unfold splice
  dsimp only
  refine .ite (fun _ => .throw h _) fun _ => ?_
  refine .ite (fun _ => .throw h _) fun _ => ?_
  refine .bind (.edit h (Edit.yields_operandType o)) fun found w₁ h₁ _ => ?_
  refine .ite (fun _ => .throw h₁.measured _) fun _ => .look ?_
  refine .ite (fun _ => .throw h₁.measured _) fun _ => ?_
  refine .bind (bounds_read h₁.measured n d.id b) fun old w₂ h₂ hold => ?_
  refine bounds_sliceIf h₂.measured hold fun above w₃ h₃ habove => ?_
  refine bounds_sliceIf h₃.measured (hold.mono h₃.keeps) fun below w₄ h₄ hbelow => ?_
  have hparts : ∀ a ∈ above ++ o :: below, w₄.now.bench.graph.Sized p a := by
    intro a ha
    rcases List.mem_append.1 ha with ha | ha
    · exact (habove a ha).mono h₄.keeps
    rcases List.mem_cons.1 ha with rfl | ha
    · exact (((ho.mono h₁.keeps).mono h₂.keeps).mono h₃.keeps).mono h₄.keeps
    · exact hbelow a ha
  refine .bind (bounds_emit h₄.measured fun hg => Emit.emits_concat hg hparts)
    fun joined w₅ h₅ hjoined => ?_
  refine .bind (bounds_cast h₅.measured hjoined d.ty) fun whole w₆ h₆ hwhole => ?_
  exact .bind (.build h₆.measured (builds_markPartial h₆.measured d.id whole)) fun _ w₇ h₇ _ =>
    .pure h₇.measured (hwhole.mono h₇.keeps)

/-- **Writing a variable** makes no operand of another size. -/
theorem bounds_write (h : w.now.tracked.Measured p) (n : Nat) (x : VarId) (ranges : List BitRange)
    (b : BlockId) (ho : w.now.bench.graph.Sized p o) :
    Bounds p w (write n x ranges b o) (Sized p) := by
  refine .bind (bounds_declaration h x) fun d w₁ h₁ _ => ?_
  dsimp only
  split
  · refine .bind (.edit h₁.measured (Edit.yields_operandType o)) fun found w₂ h₂ _ => ?_
    refine .ite (fun _ => ?_) fun _ => .throw h₂.measured _
    exact .build h₂.measured (builds_record h₂.measured x b ((ho.mono h₁.keeps).mono h₂.keeps))
  · refine .bind (bounds_splice h₁.measured n d _ b (ho.mono h₁.keeps)) fun whole w₂ h₂ hwhole => ?_
    exact .build h₂.measured (builds_record h₂.measured x b hwhole)
  · exact .throw h₁.measured _

end Watch

end BitFlow
