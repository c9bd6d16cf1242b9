import BitFlow.Proofs.Action.Compositional
import BitFlow.Proofs.Course.Lower
import BitFlow.Proofs.Move.Lower

/-!
# Courses beside actions

`Watch.Follows` relates courses of all depths to the action that does the same under bounds: where
the action comes to an answer or to a fault that is none of a bound, so do the courses, from some
depth on, and every state on their way is reached by moves. The frames of open loops hold other
steps on the side of the courses, which is of no account to what looks at nothing but graph, tables
and cursor (`Lower.Stepless`).

Main statements: `Watch.follows_lowerExpr`, `Watch.follows_write` -- expressions and writes.
-/

namespace BitFlow

/-! ## 1. The steps of open loops -/

/-- The lowering with other steps in the frames of its open loops. -/
def Lowering.withSteps (l : Lowering) (steps : List (List Stmt)) : Lowering :=
  { l with loops := List.zipWith (fun f step => { f with step := step }) l.loops steps }

namespace Lower

variable {α β : Type}

/-- **The action does not look at the steps of open loops**, and opens and closes none. -/
def Stepless (x : Lower α) : Prop :=
  ∀ l steps, l.loops.length = steps.length →
    Leaves x l (fun e l' => ∃ m, x.run (l.withSteps steps) = .error e m ∧ m.bench = l'.bench)
      fun a l' =>
        l'.loops.length = l.loops.length ∧ x.run (l.withSteps steps) = .ok a (l'.withSteps steps)

namespace Stepless

theorem pure (a : α) : Stepless (pure a) := fun _ _ _ => ⟨rfl, rfl⟩

theorem throw (e : Fault) : Stepless (throw e : Lower α) := fun _ _ _ => ⟨_, rfl, rfl⟩

theorem bind {x : Lower α} {f : α → Lower β} (hx : Stepless x) (hf : ∀ a, Stepless (f a)) :
    Stepless (x >>= f) := by
  intro l steps hlen
  have h := hx l steps hlen
  rw [Leaves.bind_iff]
  refine h.mono (fun e _ ⟨m, hm, hbench⟩ => ⟨m, ?_, hbench⟩) fun a l₁ ⟨hlen₁, h₁⟩ => ?_
  · rw [EStateM.run_bind, hm]
  · refine (hf a l₁ steps (hlen₁.trans hlen)).mono (fun e _ ⟨m, hm, hbench⟩ => ⟨m, ?_, hbench⟩)
      fun b l₂ ⟨hlen₂, h₂⟩ => ⟨hlen₂.trans hlen₁, ?_⟩
    · rw [EStateM.run_bind, h₁]
      exact hm
    · rw [EStateM.run_bind, h₁]
      exact h₂

/-- What is done on the bench. -/
theorem of_build (x : Build α) : Stepless (liftM x : Lower α) := by
  intro l steps hlen
  refine (Leaves.focus_iff x).2 ?_
  unfold Leaves
  cases hx : x.run l.bench with
  | ok a s => exact ⟨rfl, focus_ok hx⟩
  | error e s => exact ⟨_, focus_error hx, rfl⟩

theorem freshLabel (construct : String) : Stepless (freshLabel construct) := fun _ _ _ => ⟨rfl, rfl⟩

theorem newBlock (label : String) (parent : BlockId) : Stepless (newBlock label parent) :=
  .bind (of_build _) fun _ => of_build _

theorem addBreak (b : BlockId) : Stepless (addBreak b) := by
  intro l steps hlen
  unfold Lower.addBreak
  rw [Leaves.modify_iff]
  obtain ⟨bench, loops, n⟩ := l
  cases loops with
  | nil => exact ⟨rfl, rfl⟩
  | cons f rest =>
    cases steps with
    | nil => cases hlen
    | cons step steps => exact ⟨rfl, rfl⟩

end Stepless

/-- What does not depend on labels does not depend on steps. -/
theorem relabel_withSteps {l : Lowering} {steps : List (List Stmt)}
    (hlen : l.loops.length = steps.length) (ρ : String → String) :
    (l.withSteps steps).relabel ρ = l.relabel ρ := by
  have hloops : ∀ (fs : List LoopFrame) (steps : List (List Stmt)), fs.length = steps.length →
      (List.zipWith (fun f step => { f with step := step }) fs steps).map (LoopFrame.relabel ρ) =
        fs.map (LoopFrame.relabel ρ) := by
    intro fs
    induction fs with
    | nil => exact fun _ _ => rfl
    | cons f fs ih =>
      intro steps hlen
      cases steps with
      | nil => cases hlen
      | cons step steps =>
        exact congrArg (f.relabel ρ :: ·) (ih steps (Nat.succ.inj hlen))
  unfold Lowering.relabel
  rw [show (l.withSteps steps).loops.map _ = _ from hloops l.loops steps hlen]
  rfl

/-- **What reads, seals, expressions and plain statements are made of looks at no step.** -/
theorem compositional_stepless : Compositional fun _ x => Stepless x where
  pure := .pure
  throw := .throw
  bind := .bind
  look {α f} blind _ hf := by
    intro l steps hlen
    have hsame : f (l.withSteps steps) = f l := by
      rw [← blind id, ← blind id l, relabel_withSteps hlen]
    show Leaves (f l) l
      (fun e l' => ∃ m, (f (l.withSteps steps)).run (l.withSteps steps) = .error e m ∧
        m.bench = l'.bench) fun a l' =>
        l'.loops.length = l.loops.length ∧
          (f (l.withSteps steps)).run (l.withSteps steps) = .ok a (l'.withSteps steps)
    rw [hsame]
    exact hf l l steps hlen
  block _ hf := .bind (.of_build _) hf
  insertInstr _ _ _ _ _ := .of_build _
  appendPhi _ _ _ := .of_build _
  pushIncoming _ _ _ := .of_build _
  updateValue _ _ _ := .of_build _
  replaceUses _ _ := .of_build _
  detach _ := .of_build _
  setForward _ _ := .of_build _
  sealed _ := .of_build _
  onTables _ _ := .of_build _
  christen _ _ := .of_build _
  setCursor _ := fun _ _ _ => ⟨rfl, rfl⟩

end Lower

/-! ## 2. Courses beside actions -/

namespace Watch

variable {α β : Type}

open Lower (Stepless)

/-- The outcome of an action that has been noted. -/
def noteAll (w : Watched) (overflows : Bool) :
    EStateM.Result Fault Lowering α → EStateM.Result Fault Watched α
  | .ok a l => .ok a (noted w overflows l)
  | .error e l => .error e (noted w overflows l)

theorem comes_opWith (test : Lowering → Bool) (x : Lower α) (w : Watched) :
    Course.Comes (fun _ => opWith test x) w (noteAll w (test w.now) (x.run w.now)) := by
  refine .of_outcome fun _ => ?_
  unfold Course.outcome opWith
  cases x.run w.now <;> rfl

theorem comes_track {c : Nat → Course Tracked α} {x : Track α} {w : Watched}
    (h : Course.Comes c w.now.tracked (x.run w.now.tracked)) :
    Course.Comes (fun n => track (c n)) w (noteAll w false ((liftM x : Lower α).run w.now)) := by
  have hrun : (liftM x : Lower α).run w.now =
      match x.run w.now.tracked with
      | .ok a t => .ok a (retrack w.now t)
      | .error e t => .error e (retrack w.now t) := by
    cases hx : x.run w.now.tracked with
    | ok a t => exact focus_ok (focus_ok hx)
    | error e t => exact focus_error (focus_error hx)
  obtain ⟨n, hn⟩ := h
  refine ⟨n, fun m hm => ?_⟩
  dsimp only
  unfold Course.outcome track
  rw [hn m hm, hrun]
  cases x.run w.now.tracked <;> rfl

/-- A watched lowering that has come from `s` by moves, with the steps `steps` in the frames of its
    open loops. -/
structure Ready (p : Program) (steps : List (List Stmt)) (s : Tracked) (l : Lowering)
    (past : List Note) : Prop where
  origin : s.Founded
  moves : Moves p s l.tracked
  loops : l.loops.length = steps.length
  logged : ∀ n ∈ past, Moves p s n.state

namespace Ready

variable {p : Program} {steps : List (List Stmt)} {s : Tracked} {l l' : Lowering}
  {past : List Note}

theorem founded (h : Ready p steps s l past) : l.tracked.Founded := h.moves.founded h.origin

theorem idle (h : Ready p steps s l past) : Idle l.tracked := h.founded.toIdle

/-- The state before an operation is among those that are noted. -/
theorem note (h : Ready p steps s l past) (overflows : Bool) :
    ∀ n ∈ ⟨l.tracked, overflows⟩ :: past, Moves p s n.state :=
  List.forall_mem_cons.2 ⟨h.moves, h.logged⟩

/-- An operation that is a chain of moves. -/
theorem next (h : Ready p steps s l past) (hm : Moves p l.tracked l'.tracked)
    (hlen : l'.loops.length = l.loops.length) (overflows : Bool) :
    Ready p steps s l' (⟨l.tracked, overflows⟩ :: past) :=
  ⟨h.origin, h.moves.trans hm, hlen.trans h.loops, h.note overflows⟩

end Ready

/-- **The courses go the way of the action** by moves, whatever the steps of the open loops are
    at the moment: they come to the same answer, which satisfies `Q`, or to the same fault on the
    same bench. -/
def Follows (p : Program) (steps : List (List Stmt)) (c : Nat → Watch α) (x : Lower α)
    (l : Lowering) (Q : α → Lowering → Prop) : Prop :=
  ∀ s past, Ready p steps s l past → Leaves x l
    (fun e l' => e = .endless ∨ ∃ w : Watched,
      Course.Comes c ⟨l.withSteps steps, past⟩ (.error e w) ∧ w.now.bench = l'.bench ∧
        ∀ n ∈ w.past, Moves p s n.state)
    fun a l' => Moves p l.tracked l'.tracked ∧ Q a l' ∧ ∃ past',
      Course.Comes c ⟨l.withSteps steps, past⟩ (.ok a ⟨l'.withSteps steps, past'⟩) ∧
        Ready p steps s l' past'

namespace Follows

variable {p : Program} {steps : List (List Stmt)} {l : Lowering} {Q : α → Lowering → Prop}

theorem mono {c : Nat → Watch α} {x : Lower α} {Q' : α → Lowering → Prop}
    (h : Follows p steps c x l Q) (hQ : ∀ a l', Q a l' → Q' a l') : Follows p steps c x l Q' :=
  fun s past hs => (h s past hs).mono (fun _ _ he => he) fun a l' ⟨hm, hq, hc⟩ =>
    ⟨hm, hQ a l' hq, hc⟩

/-- What else is known of the answers of the action. -/
theorem also {c : Nat → Watch α} {x : Lower α} {R : α → Lowering → Prop}
    (h : Follows p steps c x l Q) (hx : l.tracked.Founded → Ends x l (fun _ => True) R) :
    Follows p steps c x l fun a l' => Q a l' ∧ R a l' := by
  intro s past hs
  have hgo := h s past hs
  unfold Leaves at hgo ⊢
  cases hrun : x.run l with
  | ok a l' =>
    rw [hrun] at hgo
    exact ⟨hgo.1, ⟨hgo.2.1, (hx hs.founded).of_ok hrun⟩, hgo.2.2⟩
  | error e l' =>
    rw [hrun] at hgo
    exact hgo

/-- A recursion may be unfolded. -/
theorem deeper {c : Nat → Watch α} {x : Lower α} (h : Follows p steps (fun n => c (n + 1)) x l Q) :
    Follows p steps c x l Q :=
  fun s past hs => (h s past hs).mono
    (fun _ _ he => he.imp_right fun ⟨w, hc, hw⟩ => ⟨w, hc.deeper, hw⟩)
    fun _ _ ⟨hm, hq, past', hc, hs'⟩ => ⟨hm, hq, past', hc.deeper, hs'⟩

theorem pure {a : α} (h : Q a l) : Follows p steps (fun _ => pure a) (pure a) l Q :=
  fun _ past hs => ⟨.refl _, h, past, .pure a _, hs⟩

theorem throw (e : Fault) : Follows p steps (fun _ => throw e : Nat → Watch α) (throw e) l Q :=
  fun _ _ hs => .inr ⟨_, .throw e _, rfl, hs.logged⟩

/-- **One after the other.** -/
theorem bind {c : Nat → Watch α} {x : Lower α} {d : Nat → α → Watch β} {f : α → Lower β}
    {R : β → Lowering → Prop} (h : Follows p steps c x l Q)
    (hf : ∀ a l', Idle l.tracked → Moves p l.tracked l'.tracked → Q a l' →
      Follows p steps (fun n => d n a) (f a) l' R) :
    Follows p steps (fun n => c n >>= d n) (x >>= f) l R := by
  intro s past hs
  rw [Leaves.bind_iff]
  refine (h s past hs).mono (fun e _ he => ?_) fun a l₁ ⟨hm, hq, past₁, hc, hs₁⟩ => ?_
  · exact he.imp_right fun ⟨w, hc, hw⟩ => ⟨w, hc.error_bind, hw⟩
  · rw [hc.ok_bind]
    exact (hf a l₁ hs.idle hm hq s past₁ hs₁).mono (fun _ _ he => he)
      fun b l₂ ⟨hm₂, hq₂, hc₂⟩ => ⟨hm.trans hm₂, hq₂, hc₂⟩

theorem discard {c : Nat → Watch α} {x : Lower α} (h : Follows p steps c x l Q) :
    Follows p steps (fun n => discard (c n)) (discard x) l fun _ _ => True :=
  .bind h fun _ _ _ _ _ => .pure trivial

/-- What follows a look at the state. -/
theorem look {d : Nat → Watched → Watch α} {f : Lowering → Lower α}
    (h : l.loops.length = steps.length → ∀ past,
      Follows p steps (fun n => d n ⟨l.withSteps steps, past⟩) (f l) l Q) :
    Follows p steps (fun n => get >>= d n) (get >>= f) l Q := by
  intro s past hs
  rw [Leaves.bind_iff, (Course.Comes.get _).ok_bind]
  exact h hs.loops past s past hs

theorem ite {b : Prop} [Decidable b] {c d : Nat → Watch α} {x y : Lower α}
    (h : b → Follows p steps c x l Q) (h' : ¬ b → Follows p steps d y l Q) :
    Follows p steps (fun n => if b then c n else d n) (if b then x else y) l Q := by
  split
  · exact h ‹b›
  · exact h' ‹¬ b›

/-- What follows a look at the lowering that is noted. -/
theorem noted_look {d : Nat → Lowering → Watch α} {f : Lowering → Lower α}
    (h : l.loops.length = steps.length →
      Follows p steps (fun n => d n (l.withSteps steps)) (f l) l Q) :
    Follows p steps (fun n => Watch.look >>= d n) (get >>= f) l Q := by
  intro s past hs
  have hlook : Course.Comes (fun _ => Watch.look) ⟨l.withSteps steps, past⟩
      (.ok (l.withSteps steps) (noted ⟨l.withSteps steps, past⟩ false (l.withSteps steps))) :=
    comes_opWith (fun _ => false) get _
  rw [Leaves.bind_iff, hlook.ok_bind]
  exact h hs.loops s _ (hs.next (.refl _) rfl false)

/-- What comes to the outcome of the action, which has been noted. -/
theorem of_noted {c : Nat → Watch α} {x : Lower α} (overflows : Bool) (hx : Stepless x)
    (hc : Idle l.tracked → ∀ past, Course.Comes c ⟨l.withSteps steps, past⟩
      (noteAll ⟨l.withSteps steps, past⟩ overflows (x.run (l.withSteps steps))))
    (h : Idle l.tracked →
      Ends x l (fun _ => True) fun a l' => Moves p l.tracked l'.tracked ∧ Q a l') :
    Follows p steps c x l Q := by
  intro s past hs
  have hfree := hx l steps hs.loops
  have hcomes := hc hs.idle past
  unfold Leaves at hfree ⊢
  cases hrun : x.run l with
  | ok a l' =>
    rw [hrun] at hfree
    rw [hfree.2] at hcomes
    obtain ⟨hm, hq⟩ := (h hs.idle).of_ok hrun
    exact ⟨hm, hq, ⟨l.tracked, overflows⟩ :: past, hcomes, hs.next hm hfree.1 overflows⟩
  | error e l' =>
    rw [hrun] at hfree
    obtain ⟨m, hm, hbench⟩ := hfree
    rw [hm] at hcomes
    exact .inr ⟨_, hcomes, hbench, hs.note overflows⟩

/-- **An operation is noted and done.** -/
theorem op {x : Lower α} (hx : Stepless x)
    (h : Idle l.tracked →
      Ends x l (fun _ => True) fun a l' => Moves p l.tracked l'.tracked ∧ Q a l') :
    Follows p steps (fun _ => op x) x l Q :=
  .of_noted false hx (fun _ _ => comes_opWith _ x _) h

/-- **An operation on the bench**, whether its arithmetic overflows or not. -/
theorem compute {test : Graph → Bool} {x : Build α}
    (h : Idle l.tracked → Ends x l.bench (fun _ => True) fun a s =>
      Moves p l.tracked s.tracked ∧ Q a { l with bench := s }) :
    Follows p steps (fun _ => compute test x) (liftM x) l Q :=
  .of_noted (test l.bench.graph) (.of_build x) (fun _ _ => comes_opWith _ (liftM x) _)
    fun hl => (Lower.ends_build x).2 (h hl)

/-- An operation on the bench that never overflows. -/
theorem build {x : Build α} (h : Idle l.tracked → Ends x l.bench (fun _ => True) fun a s =>
      Moves p l.tracked s.tracked ∧ Q a { l with bench := s }) :
    Follows p steps (fun _ => build x) (liftM x) l Q := .compute h

/-- An operation that recurs. -/
theorem track {c : Nat → Course Tracked α} {x : Track α}
    (hc : Idle l.tracked → (∀ t, x.run l.tracked ≠ .error .endless t) →
      Course.Comes c l.tracked (x.run l.tracked))
    (h : Idle l.tracked → Ends x l.tracked (fun _ => True) fun a t =>
      Moves p l.tracked t ∧ Q a (retrack l t)) :
    Follows p steps (fun n => track (c n)) (liftM x) l Q := by
  by_cases hend : ∀ t, x.run l.tracked ≠ .error .endless t
  · refine .of_noted false (.of_build _) (fun hl past => ?_) fun hl => (Lower.ends_track x).2 (h hl)
    exact comes_track (hc hl hend)
  · obtain ⟨t, ht⟩ := not_forall_not.1 hend
    have hrun : (liftM x : Lower α).run l = .error .endless (retrack l t) :=
      focus_error (focus_error ht)
    intro s past hs
    unfold Leaves
    rw [hrun]
    exact .inl rfl

/-- One action on the bench after the other. -/
theorem build_bind {c : Nat → Watch α} {x : Build α} {d : Nat → α → Watch β} {f : α → Build β}
    {R : β → Lowering → Prop} (h : Follows p steps c (liftM x) l Q)
    (hf : ∀ a l', Idle l.tracked → Moves p l.tracked l'.tracked → Q a l' →
      Follows p steps (fun n => d n a) (liftM (f a)) l' R) :
    Follows p steps (fun n => c n >>= d n) (liftM (x >>= f)) l R := by
  show Follows p steps _ (Lower.onBench (x >>= f)) l R
  rw [Lower.onBench_bind]
  exact .bind h hf

theorem build_ite {b : Prop} [Decidable b] {c d : Nat → Watch α} {x y : Build α}
    (h : b → Follows p steps c (liftM x) l Q) (h' : ¬ b → Follows p steps d (liftM y) l Q) :
    Follows p steps (fun n => if b then c n else d n) (liftM (if b then x else y)) l Q := by
  split
  · exact h ‹b›
  · exact h' ‹¬ b›

/-- What follows a look at the bench. -/
theorem build_look {d : Nat → Watched → Watch α} {f : Bench → Build α}
    (h : ∀ past,
      Follows p steps (fun n => d n ⟨l.withSteps steps, past⟩) (liftM (f l.bench)) l Q) :
    Follows p steps (fun n => get >>= d n) (liftM (get >>= f)) l Q := by
  show Follows p steps _ (Lower.onBench (get >>= f)) l Q
  rw [Lower.onBench_bind]
  intro s past hs
  rw [Leaves.bind_iff, (Course.Comes.get _).ok_bind]
  exact h past s past hs

end Follows

/-! ## 3. Expressions -/

section Expressions

variable {p : Program} {steps : List (List Stmt)} {l : Lowering}

/-- The operand has a type. -/
def HasType (o : Operand) (l : Lowering) : Prop := ∃ ty, l.tracked.graph.typeOf? o = some ty

theorem follows_declaration (x : VarId) :
    Follows p steps (fun _ => build (Track.declaration x)) (liftM (Track.declaration x)) l
      fun d l' => l' = l ∧ variableById? l.tracked.reaching.vars x = some d := by
  refine .build fun _ => (Build.ends_track _).2 ?_
  exact Track.ends_declaration (fun _ => trivial) fun d hd => ⟨.refl _, rfl, hd⟩

theorem follows_read (x : VarId) (b : BlockId) :
    Follows p steps (fun n => track (Course.read n x b)) (liftM (Track.read x b)) l HasType :=
  .track (fun hl hend => Course.comes_read hl.sane x b hend) fun hl =>
    (Build.ends_track _).1 (Build.moves_read hl x b)

/-- What is emitted at the cursor. -/
theorem follows_emit {test : Graph → Bool} {x : Emit Operand}
    (h : ∀ pt : Pointed, pt.graph = l.tracked.graph →
      Ends x pt (fun _ => True) fun o q => ∃ ty, Emitted p pt.graph o ty q.graph) :
    Follows p steps (fun _ => compute test x) (liftM x) l HasType :=
  .compute fun _ => Build.moves_emit (h _ rfl)

/-- What is emitted at the cursor, of a given type. -/
theorem follows_emitted {test : Graph → Bool} {x : Emit Operand} {ty : Ty}
    (h : Ends x ⟨l.bench.graph, l.bench.cursor⟩ (fun _ => True) fun o q =>
      Emitted p l.bench.graph o ty q.graph) :
    Follows p steps (fun _ => compute test x) (liftM x) l
      fun o l' => l'.tracked.graph.typeOf? o = some ty :=
  .compute fun _ => (Build.ends_emit _).2
    (h.mono fun _ _ he => ⟨he.moves l.bench.reaching, he.type⟩)

theorem follows_variableRead (x : VarId) (site : String) :
    Follows p steps (fun n => variableRead n x site) (liftM (Build.variableRead x site)) l
      HasType := by
  refine .build_bind (follows_declaration x) fun d l₁ _ _ _ => ?_
  refine .build_ite (fun _ => .throw _) fun _ => ?_
  exact .build_look fun _ => follows_read x _

/-- Two operands brought to one type. -/
theorem follows_coerce (a b : Operand) (site : String) :
    Follows p steps (fun _ => coerce a b site) (liftM (Emit.coerce a b site)) l fun r l' =>
      ∃ ty, l'.tracked.graph.typeOf? r.1 = some ty ∧ l'.tracked.graph.typeOf? r.2 = some ty := by
  refine .compute fun _ => (Build.ends_emit _).2 (Emit.ends_coerce.mono fun r q hr => ?_)
  obtain ⟨ty, he, ht⟩ := hr.emitted (p := p)
  exact ⟨he.moves l.bench.reaching, ty, he.type, ht⟩

/-- The two operands of an operator that is no shift are brought to one type. -/
theorem follows_align (o : Binary) (a b : Operand) (site : String) :
    Follows p steps (fun _ => align o a b site) (liftM (Build.align o a b site)) l
      fun r l' => o.isShift = true ∨ ∃ ty, l'.tracked.graph.typeOf? r.1 = some ty ∧
        l'.tracked.graph.typeOf? r.2 = some ty :=
  .build_ite (fun hshift => .pure (.inl hshift)) fun _ =>
    (follows_coerce a b site).mono fun _ _ h => .inr h

theorem follows_condition (o : Operand) (site : String) :
    Follows p steps (fun _ => condition o site) (liftM (Emit.condition o site)) l
      fun o l' => l'.tracked.graph.typeOf? o = some .bit :=
  follows_emitted (Emit.ends_condition.mono fun _ _ ho => ho.emitted)

theorem follows_refuseArrayBase (base : Expr) (site : String) :
    Follows p steps (fun _ => build (Build.refuseArrayBase base site))
      (liftM (Build.refuseArrayBase base site)) l fun _ _ => True :=
  .build fun _ => Build.ends_refuseArrayBase tolerates_all ⟨.refl _, trivial⟩

theorem follows_bound (e : Expr) (site : String) :
    Follows p steps (fun _ => build (Build.bound e site)) (liftM (Build.bound e site)) l
      fun _ _ => True :=
  .build fun _ => Build.ends_bound tolerates_all fun _ _ => ⟨.refl _, trivial⟩

end Expressions

mutual

/-- **An expression is lowered freely as it is lowered.** -/
theorem follows_lowerExpr {p : Program} {steps : List (List Stmt)} (e : Expr) {l : Lowering} :
    Follows p steps (fun n => lowerExpr n e) (liftM (Build.lowerExpr e)) l HasType := by
  match e with
  | .lit c =>
    unfold lowerExpr Build.lowerExpr
    exact .compute fun _ => Build.moves_literal c _
  | .var x =>
    unfold lowerExpr Build.lowerExpr
    exact follows_variableRead x _
  | .unary o arg =>
    unfold lowerExpr Build.lowerExpr
    refine .build_bind (follows_lowerExpr arg) fun a l₁ _ _ _ => ?_
    refine follows_emit fun pt _ => Emit.ends_unary.mono fun o q ⟨ty, ht, happ⟩ => ?_
    exact ⟨ty, happ.emitted (Emit.types_one ht) rfl trivial fun e => by cases e⟩
  | .binary o lhs rhs =>
    unfold lowerExpr Build.lowerExpr
    refine .build_bind (follows_lowerExpr lhs) fun a l₁ _ _ _ => ?_
    refine .build_bind (follows_lowerExpr rhs) fun b l₂ _ _ _ => ?_
    refine .build_bind (follows_align o a b _) fun r l₃ _ _ hr => ?_
    refine follows_emit fun pt hpt => ?_
    rw [← hpt] at hr
    rcases hr with hshift | ⟨ty, h1, h2⟩
    · refine Emit.ends_binary.mono fun o q ⟨ta, tb, ha, hb, _, happ⟩ => ?_
      exact ⟨ta, happ.emitted (Emit.types_two ha hb) ⟨rfl, .inl hshift⟩ trivial
        fun e => by cases e⟩
    · exact Build.emits_binary h1 h2
  | .compare o lhs rhs =>
    unfold lowerExpr Build.lowerExpr
    refine .build_bind (follows_lowerExpr lhs) fun a l₁ _ _ _ => ?_
    refine .build_bind (follows_lowerExpr rhs) fun b l₂ _ _ _ => ?_
    refine .build_bind (follows_coerce a b _) fun r l₃ _ _ ⟨ty, h1, h2⟩ => ?_
    refine follows_emit fun pt hpt => ?_
    rw [← hpt] at h1 h2
    exact Build.emits_compare h1 h2
  | .concat parts =>
    unfold lowerExpr Build.lowerExpr
    refine .build_bind (follows_lowerExprs parts) fun os l₁ _ _ _ => ?_
    exact follows_emit fun _ _ => Emit.ends_concat.mono fun o q ho => ho.emitted
  | .bit base pos =>
    unfold lowerExpr Build.lowerExpr
    refine .build_bind (follows_refuseArrayBase base _) fun _ l₁ _ _ _ => ?_
    refine .build_bind (follows_lowerExpr base) fun a l₂ _ _ ⟨ta, ha⟩ => ?_
    refine .build_bind (follows_lowerExpr pos) fun k l₃ hl₂ h₃ ⟨tk, hk⟩ => ?_
    have ha := h₃.keepsTypes hl₂ _ _ ha
    refine follows_emit fun pt hpt => ?_
    rw [← hpt] at ha hk
    exact Emit.ends_index.mono fun o q ho => ho.emitted ha hk
  | .range base msb lsb =>
    unfold lowerExpr Build.lowerExpr
    refine .build_bind (follows_refuseArrayBase base _) fun _ l₁ _ _ _ => ?_
    refine .build_bind (follows_lowerExpr base) fun a l₂ _ _ _ => ?_
    refine .build_bind (follows_bound msb _) fun hi l₃ _ _ _ => ?_
    refine .build_bind (follows_bound lsb _) fun lo l₄ _ _ _ => ?_
    exact follows_emit fun _ _ => Emit.ends_slice.mono fun o q ho => ⟨_, ho.emitted⟩
  | .ternary cond yes no =>
    unfold lowerExpr Build.lowerExpr
    refine .build_bind (follows_lowerExpr cond) fun c l₁ _ _ _ => ?_
    refine .build_bind (follows_condition c _) fun c l₂ _ _ _ => ?_
    refine .build_bind (follows_lowerExpr yes) fun a l₃ _ _ _ => ?_
    refine .build_bind (follows_lowerExpr no) fun b l₄ _ _ _ => ?_
    refine .build_bind (follows_coerce a b _) fun r l₅ _ _ _ => ?_
    exact follows_emit fun _ _ => Emit.ends_select.mono fun o q ho => ho.emitted
  | .cast arg ty =>
    unfold lowerExpr Build.lowerExpr
    refine .build_bind (follows_lowerExpr arg) fun a l₁ _ _ _ => ?_
    exact follows_emit fun _ _ => Emit.ends_cast.mono fun o q ho => ⟨_, ho.emitted⟩

theorem follows_lowerExprs {p : Program} {steps : List (List Stmt)} (es : List Expr)
    {l : Lowering} :
    Follows p steps (fun n => lowerExprs n es) (liftM (Build.lowerExprs es)) l fun _ _ => True := by
  match es with
  | [] =>
    unfold lowerExprs Build.lowerExprs
    exact .pure trivial
  | e :: es =>
    unfold lowerExprs Build.lowerExprs
    refine .build_bind (follows_lowerExpr e) fun o l₁ _ _ _ => ?_
    exact .build_bind (follows_lowerExprs es) fun os l₂ _ _ _ => .pure trivial

end

section Writes

variable {p : Program} {steps : List (List Stmt)} {l : Lowering}

/-- **A condition is lowered freely as it is lowered.** -/
theorem follows_lowerCondition (e : Expr) :
    Follows p steps (fun n => lowerCondition n e) (liftM (Build.lowerCondition e)) l fun o l' =>
      l'.tracked.graph.typeOf? o = some .bit :=
  .build_bind (follows_lowerExpr e) fun o _ _ _ _ => follows_condition o _

/-! ## 4. Writes -/

/-- An operand stored at the type of its place. -/
theorem follows_coerceTo (o : Operand) (ty : Ty) (site : String) :
    Follows p steps (fun _ => coerceTo o ty site) (liftM (Emit.coerceTo o ty site)) l
      fun a l' => l'.tracked.graph.typeOf? a = some ty :=
  .compute fun _ => Build.moves_coerceTo.mono fun _ _ ⟨hm, hty, _⟩ => ⟨hm, hty⟩

theorem follows_operandType (o : Operand) :
    Follows p steps (fun _ => build (Edit.operandType o)) (liftM (Edit.operandType o)) l
      fun ty l' => l' = l ∧ l.tracked.graph.typeOf? o = some ty :=
  .build fun _ => (Build.ends_edit _).2 (Edit.ends_typeOf? fun _ hty => ⟨.refl _, rfl, hty⟩)

/-- What follows a slice that is made only where one is asked for. -/
theorem follows_sliceIf_bind {c : Prop} [Decidable c] {a : Operand} {msb lsb : Nat} {site : String}
    {d : Nat → List Operand → Watch Operand} {k : List Operand → Build Operand}
    {Q : Operand → Lowering → Prop}
    (hk : ∀ os l', Follows p steps (fun n => d n os) (liftM (k os)) l' Q) :
    Follows p steps
      (fun n => if c then do
        let o ← slice a msb lsb site
        let os ← pure [o]
        d n os
      else do
        let os ← pure []
        d n os)
      (liftM (if c then do
        let o ← (liftM (Emit.slice a msb lsb site) : Build Operand)
        let os ← pure [o]
        k os
      else do
        let os ← pure []
        k os)) l Q := by
  have hpure : ∀ os l',
      Follows p steps (fun n => Pure.pure os >>= d n) (liftM (Pure.pure os >>= k)) l' Q := by
    intro os l'
    refine .build_bind (Q := fun os' l'' => os' = os ∧ l'' = l') (.pure ⟨rfl, rfl⟩) ?_
    rintro _ _ _ _ ⟨rfl, rfl⟩
    exact hk _ _
  have hslice : Follows p steps (fun _ => slice a msb lsb site)
      (liftM (Emit.slice a msb lsb site)) l HasType :=
    follows_emit fun _ _ => Emit.ends_slice.mono fun _ _ hs => ⟨_, hs.emitted⟩
  exact .build_ite (fun _ => .build_bind hslice fun o l₁ _ _ _ => hpure [o] l₁) fun _ => hpure [] l

/-- A value made by a partial write is marked as such. -/
theorem follows_markPartial {x : VarId} {o : Operand} {ty : Ty}
    (ht : l.tracked.graph.typeOf? o = some ty) :
    Follows p steps (fun _ => build (Build.markPartial x o)) (liftM (Build.markPartial x o)) l
      fun _ l' => l'.tracked.graph.typeOf? o = some ty := by
  refine .build fun _ => ((Build.ends_markPartial (Graph.knows_of_typeOf? ht)).and
    (Build.keeps_tables_markPartial x o _)).mono ?_
  rintro _ _ ⟨⟨t, halike, rfl⟩, htables⟩
  have hcounts : t.reaching.stats = l.tracked.reaching.stats := congrArg Reaching.stats htables
  exact ⟨.single (.alike halike hcounts), (halike.graph.typeOf? o).trans ht⟩

/-- **The content of a whole variable with one part replaced.** -/
theorem follows_splice (d : Variable) (r : BitRange) (b : BlockId) (o : Operand) (site : String) :
    Follows p steps (fun n => splice n d r b o site) (liftM (Build.splice d r b o site)) l
      fun a l' => l'.tracked.graph.typeOf? a = some d.ty := by
  unfold splice Build.splice
  refine .build_ite (fun _ => .throw _) fun _ => ?_
  refine .build_ite (fun _ => .throw _) fun _ => ?_
  refine .build_bind (follows_operandType o) fun ty l₁ _ _ ⟨h₁, _⟩ => ?_
  subst h₁
  refine .build_ite (fun _ => .throw _) fun _ => ?_
  refine .build_look fun past => ?_
  refine .build_ite (fun _ => .throw _) fun _ => ?_
  refine .build_bind (follows_read d.id b) fun old l₂ _ _ _ => ?_
  refine follows_sliceIf_bind fun above l₃ => follows_sliceIf_bind fun below l₄ => ?_
  have hconcat : Follows p steps (fun _ => build (Emit.concat (above ++ o :: below) site))
      (liftM (Emit.concat (above ++ o :: below) site)) l₄ HasType :=
    follows_emit fun _ _ => Emit.ends_concat.mono fun _ _ hj => hj.emitted
  refine .build_bind hconcat fun joined l₅ _ _ _ => ?_
  have hcast : Follows p steps (fun _ => cast joined d.ty site)
      (liftM (Emit.cast joined d.ty site)) l₅
      fun a l' => l'.tracked.graph.typeOf? a = some d.ty :=
    follows_emitted (Emit.ends_cast.mono fun _ _ hc => hc.emitted)
  refine .build_bind hcast fun whole l₆ _ _ hw => ?_
  exact .build_bind (follows_markPartial hw) fun _ l₇ _ _ hw => .pure hw

/-- **A variable is written freely as it is written**, with an operand that is near where it is
    written. -/
theorem follows_write (x : VarId) (ranges : List BitRange) {b : BlockId} {o : Operand}
    (hplace : l.bench.cursor.block = b) (ho : l.bench.graph.Anchors o)
    (hnear : Build.Near b l.bench.graph o) :
    Follows p steps (fun n => write n x ranges b o) (liftM (Build.write x ranges b o)) l
      fun _ _ => True := by
  have hrecord : ∀ {l : Lowering} {d : Variable} {whole : Operand},
      variableById? l.tracked.reaching.vars x = some d →
      l.tracked.graph.typeOf? whole = some d.ty → l.tracked.graph.Anchors whole →
      Build.Near b l.bench.graph whole →
      Follows p steps
        (fun _ => build do
          Track.onTables (·.record x b whole)
          Track.nameAfter x whole
          Pure.pure whole)
        (liftM (do
          Track.onTables (·.record x b whole)
          Track.nameAfter x whole
          Pure.pure whole : Build Operand)) l fun _ _ => True := fun hd hty hwhole hnear =>
    .build fun _ => (Build.moves_record hd hty hwhole hnear).mono fun _ _ h => ⟨h, trivial⟩
  unfold write Build.write
  refine .build_bind (follows_declaration x) fun d l₁ _ _ ⟨h₁, hd⟩ => ?_
  subst h₁
  rcases ranges with - | ⟨r, - | ⟨r', ranges⟩⟩
  · -- the whole variable
    refine .build_bind (follows_operandType o) fun ty l₂ _ _ ⟨h₂, hty⟩ => ?_
    subst h₂
    refine .build_ite (fun ht => ?_) fun _ => .throw _
    subst ht
    exact hrecord hd hty ho hnear
  · -- one part of it
    have hsplice : Follows p steps (fun n => splice n d r b o ("write of " ++ d.name))
        (liftM (Build.splice d r b o ("write of " ++ d.name))) l₁ fun a l' =>
          l'.tracked.graph.typeOf? a = some d.ty ∧
            l'.bench.graph.Anchors a ∧ Build.Near b l'.bench.graph a :=
      (follows_splice d r b o _).also fun hl => (Lower.ends_build _).2
        ((Leaves.any_iff.1 ((Build.provision_near p b).splice ⟨hl.toIdle, hl.sheltered, hplace⟩
          ⟨ho, hnear⟩ d r b _)).mono fun _ _ ha => ha.answer)
    refine .build_bind hsplice fun whole l₂ hl h₂ ⟨hty, hwhole, hnear⟩ => ?_
    exact hrecord (by rw [h₂.vars hl]; exact hd) hty hwhole hnear
  · exact .throw _

end Writes

end Watch

end BitFlow
