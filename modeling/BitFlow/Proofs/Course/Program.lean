import BitFlow.Proofs.Course.Follow
import BitFlow.Proofs.Lower.Finish
import BitFlow.Proofs.Lower.Lineage

/-!
# Every lowering ends

The course of a lowering goes the way of the lowering, statement by statement. The induction is on
the statements: what a `continue` lowers is no part of it, but the step of the loop around it, and
that has been dealt with before the body of the loop.

An edge is a move if it leads to a live block. It does, since a live block comes of live blocks
only: statements that end in a live block have started in one (`Lower.Inherits`), and the blocks
that they lead to are of the kind of the block where they have started.

Main statements: `Program.exists_course` -- some depth is enough for a lowering without bounds, and
from there on its outcome is the one that it has under bounds; `Program.Meets.moves` -- it gets
there by moves.
-/

namespace BitFlow

namespace Watch

open Lower (Stepless Makes Still Descends Inherits descends_still)

variable {p : Program} {steps : List (List Stmt)} {α β : Type}

/-! ## 1. From every state -/

/-- **The courses go the way of the action from every state.** -/
def Traces (p : Program) (steps : List (List Stmt)) (c : Nat → Watch α) (x : Lower α) : Prop :=
  ∀ l, Follows p steps c x l fun _ _ => True

namespace Traces

theorem pure (a : α) : Traces p steps (fun _ => pure a) (pure a) := fun _ => .pure trivial

theorem throw (e : Fault) : Traces p steps (fun _ => throw e : Nat → Watch α) (throw e) :=
  fun _ => .throw e

theorem bind {c : Nat → Watch α} {x : Lower α} {d : Nat → α → Watch β} {f : α → Lower β}
    (h : Traces p steps c x) (hf : ∀ a, Traces p steps (fun n => d n a) (f a)) :
    Traces p steps (fun n => c n >>= d n) (x >>= f) :=
  fun l => .bind (h l) fun a l' _ _ _ => hf a l'

theorem ite {b : Prop} [Decidable b] {c d : Nat → Watch α} {x y : Lower α}
    (h : Traces p steps c x) (h' : Traces p steps d y) :
    Traces p steps (fun n => if b then c n else d n) (if b then x else y) :=
  fun l => .ite (fun _ => h l) fun _ => h' l

theorem op {x : Lower α} (hx : Stepless x) (h : Makes p x) : Traces p steps (fun _ => op x) x :=
  fun l => .op hx fun hl => (h l hl).mono fun _ _ hm => ⟨hm, trivial⟩

theorem build {x : Build α} (h : Makes p (liftM x : Lower α)) :
    Traces p steps (fun _ => build x) (liftM x) := .op (.of_build x) h

/-- What is known of the answers of the action from a state. -/
theorem knowing {c : Nat → Watch α} {x : Lower α} (h : Traces p steps c x) {l : Lowering}
    {R : α → Lowering → Prop} (hx : Ends x l (fun _ => True) R) : Follows p steps c x l R :=
  ((h l).also fun _ => hx).mono fun _ _ hr => hr.2

/-- A still action makes nothing live. -/
theorem still {c : Nat → Watch α} {x : Lower α} (h : Traces p steps c x) (hx : Still α x)
    {A : Prop} {l : Lowering} : Follows p steps c x l fun _ l' => Descends A l l' :=
  h.knowing (descends_still hx)

end Traces

/-- A look at the state. -/
theorem follows_look {x : Lower α} (hx : Stepless x) (h : Keeps id x) {l : Lowering} :
    Follows p steps (fun _ => op x) x l fun _ l' => l' = l :=
  (Traces.op hx (.of_look h)).knowing (h l)

theorem traces_sealBlock (b : BlockId) :
    Traces p steps (fun n => track (Course.sealBlock n b)) (liftM (Track.sealBlock b)) :=
  fun _ => .track (fun hl hend => Course.comes_sealBlock hl.sane b hend) fun _ =>
    Ends.of_run fun _ _ run => ⟨.single (.sealed run), trivial⟩

theorem traces_newBlock (label : String) (parent : BlockId) :
    Traces p steps (fun _ => op (Lower.newBlock label parent)) (Lower.newBlock label parent) :=
  .op (.newBlock label parent) (Lower.makes_newBlock label parent)

theorem traces_freshLabel (construct : String) :
    Traces p steps (fun _ => op (Lower.freshLabel construct)) (Lower.freshLabel construct) :=
  .op (.freshLabel construct) (Lower.makes_freshLabel construct)

theorem traces_enter (b : BlockId) : Traces p steps (fun _ => op (Lower.enter b)) (Lower.enter b) :=
  .op (Lower.compositional_stepless.enter b) (Lower.makes_enter b)

theorem traces_deadBlock : Traces p steps (fun n => deadBlock n) Lower.deadBlock :=
  .bind (traces_freshLabel _) fun _ => .bind (.build (Lower.makes_addBlock _ _)) fun b =>
    .bind (traces_sealBlock b) fun _ => .pure b

/-! ## 2. Statements without control flow -/

/-- The cursor is in the block, and the operand may be written there. -/
structure Placed (b : BlockId) (o : Operand) (l : Lowering) : Prop where
  place : l.bench.cursor.block = b
  anchored : l.bench.graph.Anchors o
  near : Build.Near b l.bench.graph o

/-- What is done on the bench and gives an operand for the block in which the cursor is. -/
theorem placed_of_provides {l : Lowering} {b : BlockId} {x : Build Operand}
    (h : Ends x l.bench (fun _ => True)
      (Provides (fun s => Idle s.tracked ∧ Build.Stays b s)
        (fun g o => g.Anchors o ∧ Build.Near b g o) l.bench)) :
    Ends (liftM x : Lower Operand) l (fun _ => True) (Placed b) :=
  (Lower.ends_build x).2 (h.mono fun _ _ ho => ⟨ho.state.2.place, ho.answer.1, ho.answer.2⟩)

/-- An operand is stored in a variable. -/
theorem follows_store {l : Lowering} {x : VarId} {ranges : List BitRange} {b : BlockId}
    {o : Operand} {ty : Ty} {site : String} (ho : Placed b o l) :
    Follows p steps
      (fun n => do
        let o ← coerceTo o ty site
        discard (write n x ranges b o)
        Pure.pure b)
      (do
        let o ← (liftM (Emit.coerceTo o ty site) : Lower Operand)
        discard (liftM (Build.write x ranges b o) : Lower Operand)
        Pure.pure b) l fun _ _ => True := by
  refine .bind ((follows_coerceTo o ty site).also fun hl => placed_of_provides
    ((Build.provision_near p b).coerceTo ⟨hl.toIdle, hl.sheltered, ho.place⟩
      ⟨ho.anchored, ho.near⟩ ty site)) fun a l₁ _ _ ⟨_, ha⟩ => ?_
  exact .bind (follows_write x ranges ha.place ha.anchored ha.near).discard fun _ _ _ _ _ =>
    .pure trivial

/-- The cursor is in the block that is entered. -/
theorem follows_enter (b : BlockId) {l : Lowering} :
    Follows p steps (fun _ => op (Lower.enter b)) (Lower.enter b) l
      fun _ l' => l'.bench.cursor.block = b :=
  (traces_enter b).knowing (Lower.ends_enter rfl)

theorem traces_assign (x : VarId) (ss : List Selector) (e : Expr) (b : BlockId) :
    Traces p steps (fun n => assign n x ss e b) (Lower.assign x ss e b) := by
  intro l
  refine .bind (follows_enter b) fun _ l₁ _ _ hb => ?_
  refine .bind (follows_look (.of_build _) (Lower.keeps_declaration x)) fun d l₂ _ _ h₂ => ?_
  subst h₂
  refine .ite (fun _ => .throw _) fun _ => ?_
  refine .bind (follows_look (Lower.compositional_stepless.selectedRanges _ _ _)
    (Lower.keeps_selectedRanges _ _ _)) fun ranges l₃ _ _ h₃ => ?_
  subst h₃
  refine .bind ((follows_lowerExpr e).also fun hl => placed_of_provides
    ((Build.provision_near p b).lowerExpr e ⟨hl.toIdle, hl.sheltered, hb⟩)) fun o l₄ _ _ ho => ?_
  exact follows_store ho.2

/-- A port is found at its place, and it admits the access. -/
theorem follows_portFor (q : PortId) (access : Access) (site : String) {l : Lowering} :
    Follows p steps (fun _ => op (Lower.portFor p q access site)) (Lower.portFor p q access site) l
      fun port l' => l' = l ∧ port ∈ p.ports ∧
        (match access with
          | .read => port.direction = .input
          | .write => port.direction = .output) :=
  .op (Lower.compositional_stepless.portFor p q access site) fun _ =>
    Lower.ends_portAt fun _ hport hdir => ⟨.refl _, rfl, hport, hdir⟩

theorem traces_portRead (q : PortId) (x : VarId) (b : BlockId) :
    Traces p steps (fun n => portRead n p q x b) (Lower.portRead p q x b) := by
  intro l
  refine .bind (follows_enter b) fun _ l₁ _ _ hb => ?_
  refine .bind (follows_look (.of_build _) (Lower.keeps_declaration x)) fun d l₂ _ _ h₂ => ?_
  subst h₂
  refine .bind (follows_portFor q .read _) fun port l₃ _ _ ⟨h₃, hport, hdir⟩ => ?_
  subst h₃
  refine .ite (fun _ => .throw _) fun _ => ?_
  have hread : Follows p steps (fun _ => build (Emit.portRead port.id port.ty))
      (liftM (Emit.portRead port.id port.ty)) l₃ fun o l' => l'.tracked.graph.Anchors o :=
    .op (.of_build _) fun _ => Lower.moves_portRead hport hdir
  refine .bind (hread.also fun hl => placed_of_provides (b := b) ?_) fun o l₄ _ _ ho =>
    follows_store ho.2
  refine (Build.provision_near p b).emitted (.refl ⟨hl.toIdle, hl.sheltered, hb⟩)
    (Emit.single_portRead _ _) ?_
  unfold Emit.portRead
  rw [Ends.bind_iff]
  refine Emit.ends_instr.mono fun v q hput => ?_
  exact (Build.provision_near p b).put ⟨hl.toIdle, hl.sheltered, hb⟩ (fun _ ha => by cases ha) hput

theorem traces_portWrite (q : PortId) (e : Expr) (b : BlockId) :
    Traces p steps (fun n => portWrite n p q e b) (Lower.portWrite p q e b) := by
  intro l
  refine .bind (traces_enter b l) fun _ l₁ _ _ _ => ?_
  refine .bind (follows_portFor q .write _) fun port l₂ _ _ ⟨_, hport, hdir⟩ => ?_
  refine .bind (follows_lowerExpr e) fun o l₃ _ _ _ => ?_
  refine .bind (follows_coerceTo o port.ty _) fun o l₄ _ _ ho => ?_
  have hstore : Follows p steps (fun _ => build (Emit.portWrite port.id o))
      (liftM (Emit.portWrite port.id o)) l₄ fun _ _ => True :=
    .op (.of_build _) fun _ =>
      (Lower.moves_portWrite hport hdir ho).mono fun _ _ hm => ⟨hm, trivial⟩
  exact .bind hstore.discard fun _ _ _ _ _ => .pure trivial

/-! ## 3. Where statements start and end -/

/-- The block is known, and it is live if and only if `A` holds. -/
def LiveIff (A : Prop) (l : Lowering) (b : BlockId) : Prop :=
  ∃ k, l.bench.graph.kind? b = some k ∧ (k = .live ↔ A)

/-- **A block where statements may start**: it is live at most if `A` holds, and if `A` holds the
    next round of each open loop starts at a live block. -/
structure Site (A : Prop) (l : Lowering) (b : BlockId) : Prop where
  under : l.bench.graph.Under A b
  heads : A → ∀ c ∈ l.loops.map LoopFrame.head, l.bench.graph.kind? c = some .live

section Sites

variable {A : Prop} {l l' : Lowering} {b c : BlockId}

theorem LiveIff.under (h : LiveIff A l b) : l.bench.graph.Under A b := by
  obtain ⟨k, hk, hA⟩ := h
  exact ⟨k, hk, hA.1⟩

theorem LiveIff.live (h : LiveIff A l b) (hA : A) : l.bench.graph.kind? b = some .live := by
  obtain ⟨k, hk, hiff⟩ := h
  rw [hk, hiff.2 hA]

theorem LiveIff.along (h : LiveIff A l b) (hd : Descends A l l') : LiveIff A l' b := by
  obtain ⟨k, hk, hA⟩ := h
  exact ⟨k, hd.kind hk, hA⟩

theorem Site.next (h : Site A l b) (hd : Descends A l l') (hc : l'.bench.graph.Under A c) :
    Site A l' c :=
  ⟨hc, fun hA d hd' => hd.kind (h.heads hA d (hd.heads ▸ hd'))⟩

/-- The condition may be that the block itself is live. -/
theorem Site.exact (h : Site A l b) : ∃ B : Prop, Site B l b ∧ LiveIff B l b := by
  obtain ⟨k, hk, hA⟩ := h.under
  exact ⟨k = .live, ⟨⟨k, hk, id⟩, fun e => h.heads (hA e)⟩, k, hk, Iff.rfl⟩

/-- A new block, of the kind of its parent. -/
theorem follows_newBlock (hb : LiveIff A l b) (label : String) :
    Follows p steps (fun _ => op (Lower.newBlock label b)) (Lower.newBlock label b) l fun c l' =>
      Descends A l l' ∧ LiveIff A l' c := by
  refine ((traces_newBlock label b).knowing (Lower.descends_newBlock hb.under label)).mono
    fun c l' ⟨hd, _, hkind⟩ => ⟨hd, ?_⟩
  obtain ⟨k, hk, hA⟩ := hb
  exact ⟨k, hkind.trans hk, hA⟩

/-- An edge whose condition is a truth value. -/
theorem follows_addEdge {cond : Option Operand} (hb : l.bench.graph.kind? b = some .live → A)
    (hc : LiveIff A l c) (ht : ∀ o, cond = some o → l.tracked.graph.typeOf? o = some .bit) :
    Follows p steps (fun _ => build (Edit.addEdge b cond c)) (liftM (Edit.addEdge b cond c)) l
      fun _ l' => Descends A l l' := by
  have hmoves : Follows p steps (fun _ => build (Edit.addEdge b cond c))
      (liftM (Edit.addEdge b cond c)) l fun _ _ => True :=
    .op (.of_build _) fun _ => (Lower.moves_addEdge (fun hlive => hc.live (hb hlive)) ht).mono
      fun _ _ hm => ⟨hm, trivial⟩
  exact (hmoves.also fun _ => Lower.descends_addEdge hb cond c).mono fun _ _ h => h.2

/-- A jump. -/
theorem follows_jump (hb : l.bench.graph.kind? b = some .live → A) (hc : LiveIff A l c) :
    Follows p steps (fun _ => build (Edit.addEdge b none c)) (liftM (Edit.addEdge b none c)) l
      fun _ l' => Descends A l l' := follows_addEdge hb hc fun _ ho => by cases ho

end Sites

/-- **The courses go the way of an action that leads from block to block**, which hands on whether
    it is live. -/
structure Passes (p : Program) (steps : List (List Stmt)) (c : Nat → BlockId → Watch BlockId)
    (x : BlockId → Lower BlockId) : Prop where
  inherits : Inherits x
  follows : ∀ {A l b}, Site A l b → Follows p steps (fun n => c n b) (x b) l fun _ _ => True

namespace Passes

variable {c : Nat → BlockId → Watch BlockId} {x : BlockId → Lower BlockId}

/-- Where the action ends statements may start again. -/
theorem run (h : Passes p steps c x) {A : Prop} {l : Lowering} {b : BlockId} (hb : Site A l b) :
    Follows p steps (fun n => c n b) (x b) l fun last l' => Descends A l l' ∧ Site A l' last :=
  ((h.follows hb).also fun _ => h.inherits A l b hb.under).mono fun _ _ ⟨_, hd, hlast⟩ =>
    ⟨hd, hb.next hd hlast⟩

/-- A recursion may be unfolded. -/
theorem deeper (h : Passes p steps (fun n => c (n + 1)) x) : Passes p steps c x :=
  ⟨h.inherits, fun hb => .deeper (h.follows hb)⟩

theorem of_traces (hx : Inherits x) (h : ∀ b, Traces p steps (fun n => c n b) (x b)) :
    Passes p steps c x := ⟨hx, fun {_ l b} _ => h b l⟩

end Passes

/-! ## 4. Jumps and joins -/

theorem isEmpty_withSteps {l : Lowering} (hlen : l.loops.length = steps.length) :
    (l.withSteps steps).loops.isEmpty = l.loops.isEmpty := by
  have hsame : (l.withSteps steps).loops.length = l.loops.length := by
    show (List.zipWith _ l.loops steps).length = _
    rw [List.length_zipWith, ← hlen, Nat.min_self]
  rw [Bool.eq_iff_iff, List.isEmpty_iff_length_eq_zero, List.isEmpty_iff_length_eq_zero, hsame]

theorem traces_breakLoop (b : BlockId) :
    Traces p steps (fun n => breakLoop n b) (Lower.breakLoop b) := by
  refine .bind (.build (.of_look (Lower.keeps_block b))) fun y => fun l => .look fun hlen past => ?_
  rw [isEmpty_withSteps hlen]
  have haddBreak : Traces p steps (fun _ => op (Lower.addBreak b)) (Lower.addBreak b) :=
    .op (.addBreak b) (Lower.makes_addBreak b)
  refine Traces.ite (.throw _) ?_ l
  exact .ite (.bind haddBreak fun _ => traces_deadBlock) traces_deadBlock

theorem traces_sealJoin (join : BlockId) :
    Traces p steps (fun n => sealJoin n join) (Lower.sealJoin join) := by
  intro l
  have hblock : Follows p steps (fun _ => build (Edit.block join)) (liftM (Edit.block join)) l
      fun y l' => l' = l ∧ l.bench.graph.block? join = some y :=
    .build fun _ => (Build.ends_edit _).2
      (Edit.ends_block_or trivial fun y hy => ⟨.refl _, rfl, hy⟩)
  refine .bind hblock fun y l₁ _ _ ⟨h₁, hy⟩ => .ite (fun hpreds => ?_) fun _ => ?_
  · subst h₁
    have hkill := Lower.moves_kill (p := p) hy hpreds
    exact .bind (.op (.of_build _) fun _ => hkill.mono fun _ _ hm => ⟨hm, trivial⟩)
      fun _ l₂ _ _ _ => traces_sealBlock join l₂
  · exact traces_sealBlock join l₁

section Loops

variable {A : Prop} {l : Lowering}

/-- The edges of a loop's condition block. The block behind the loop, if it has been made, is of the
    kind of the loop. -/
theorem follows_loopTest {head first : BlockId} (hhead : LiveIff A l head)
    (hfirst : LiveIff A l first) (label : String) (cond : Expr) (known : Option Bool) :
    Follows p steps (fun n => loopTest n label cond known head first)
      (Lower.loopTest label cond known head first) l fun exit? l' =>
        Descends A l l' ∧ ∀ exit, exit? = some exit → LiveIff A l' exit := by
  unfold loopTest Lower.loopTest
  refine .ite (fun _ => ?_) fun _ => ?_
  · refine .bind (follows_jump hhead.under.live hfirst) fun _ l₁ _ _ h₁ => ?_
    exact .pure ⟨h₁, fun exit e => by cases e⟩
  refine .bind (follows_newBlock hhead _) fun exit l₁ _ _ ⟨h₁, hexit⟩ => ?_
  refine .bind ((traces_enter head).still (A := A) (Lower.compositional_still.enter head))
    fun _ l₂ _ _ h₂ => ?_
  refine .bind ((follows_lowerCondition cond).also fun _ =>
    descends_still (A := A) (Lower.compositional_still.storing.lowerCondition cond))
    fun c l₃ _ _ ⟨hc, h₃⟩ => ?_
  have h₁₃ := (h₁.trans h₂).trans h₃
  have hhead₃ := hhead.along h₁₃
  refine .bind (follows_addEdge hhead₃.under.live (hfirst.along h₁₃) fun o ho => ?_)
    fun _ l₄ _ _ h₄ => ?_
  · cases ho
    exact hc
  have hexit₄ := ((hexit.along h₂).along h₃).along h₄
  refine .bind (follows_jump (hhead₃.along h₄).under.live hexit₄) fun _ l₅ _ _ h₅ => .pure ?_
  refine ⟨(h₁₃.trans h₄).trans h₅, fun e he => ?_⟩
  cases he
  exact hexit₄.along h₅

/-- The edges from the places that leave a loop, if that is live. -/
theorem follows_joinBreaks {exit : BlockId} {breaks : List BlockId} (hA : breaks = [] ∨ A)
    (hexit : LiveIff A l exit) :
    Follows p steps (fun _ => joinBreaks exit breaks) (Lower.joinBreaks exit breaks) l
      fun _ l' => Descends A l l' := by
  unfold joinBreaks Lower.joinBreaks
  induction breaks generalizing l with
  | nil => exact .pure (.refl l)
  | cons b breaks ih =>
    have hA : A := hA.resolve_left (List.cons_ne_nil _ _)
    refine .bind (follows_jump (fun _ => hA) hexit) fun _ l₁ _ _ h₁ => ?_
    exact (ih (.inr hA) (hexit.along h₁)).mono fun _ _ h₂ => h₁.trans h₂

/-- The block behind a loop does not depend on its step. -/
theorem follows_loopExit {f : LoopFrame} {exit? : Option BlockId} (hA : f.breaks = [] ∨ A)
    (hhead : LiveIff A l f.head) (hexit : ∀ exit, exit? = some exit → LiveIff A l exit)
    (step : List Stmt) :
    Follows p steps (fun n => loopExit n { f with step := step } exit?) (Lower.loopExit f exit?) l
      fun _ _ => True := by
  have hseal : ∀ l, Follows p steps (fun n => track (Course.sealBlock n f.head))
      (liftM (Track.sealBlock f.head)) l fun _ l' => Descends A l l' := fun _ =>
    (traces_sealBlock f.head).still (Lower.compositional_still.sealBlock f.head)
  cases exit? with
  | some exit =>
    refine .bind (follows_joinBreaks hA (hexit exit rfl)) fun _ l₁ _ _ _ => ?_
    exact .bind (hseal l₁) fun _ l₂ _ _ _ => .pure trivial
  | none =>
    refine .bind (hseal l) fun _ l₁ _ _ h₁ => .ite (fun _ => ?_) fun _ => ?_
    · exact Traces.build (Lower.makes_addBlock _ _) l₁
    · refine .bind (follows_newBlock (hhead.along h₁) _) fun exit l₂ _ _ ⟨h₂, hexit⟩ => ?_
      exact .bind (follows_joinBreaks hA hexit) fun _ l₃ _ _ _ => .pure trivial

end Loops

/-! ## 5. Loops -/

/-- The step of the innermost loop is exchanged. -/
theorem comes_setStep {l : Lowering} {step step' : List Stmt} {past : List Note}
    (hlen : l.loops.length = (step :: steps).length) :
    Course.Comes (fun _ => op (setStep step')) ⟨l.withSteps (step :: steps), past⟩
      (.ok () ⟨l.withSteps (step' :: steps), ⟨l.tracked, false⟩ :: past⟩) := by
  obtain ⟨bench, loops, n⟩ := l
  cases loops with
  | nil => cases hlen
  | cons f rest => exact .of_outcome fun _ => rfl

/-- **The step of the innermost loop**, given what lowers it while it is not in its frame. -/
theorem passes_lowerStep {step : List Stmt} {advance : BlockId → Lower BlockId}
    (h : Passes p ([] :: steps) (fun n b => lowerStmts n p step b) advance) :
    Passes p (step :: steps) (fun n b => lowerStep n p b) advance := by
  refine .deeper ⟨h.inherits, fun {A l b} hb s past hs => ?_⟩
  have hloops : ∃ (f : LoopFrame) (rest : List LoopFrame),
      (l.withSteps (step :: steps)).loops = { f with step := step } :: rest := by
    obtain ⟨bench, loops, n⟩ := l
    cases loops with
    | nil => cases hs.loops
    | cons f rest => exact ⟨f, _, rfl⟩
  obtain ⟨f, rest, hloops⟩ := hloops
  unfold lowerStep
  rw [(Course.Comes.get _).ok_bind, hloops]
  dsimp only
  cases step with
  | nil =>
    -- an empty step is skipped; to lower no statements would come to the same
    refine (h.follows hb s past hs).mono (fun e _ he => ?_)
      fun last l' ⟨hm, hq, past', hc, hs'⟩ => ?_
    · exact he.imp_right fun ⟨w, hc, hw⟩ => ⟨w, hc.unfolded, hw⟩
    · exact ⟨hm, hq, past', hc.unfolded, hs'⟩
  | cons first step =>
    simp only [List.isEmpty_cons, Bool.false_eq_true, if_false]
    rw [(comes_setStep hs.loops).ok_bind]
    refine (h.follows hb s _ ⟨hs.origin, hs.moves, hs.loops, hs.note false⟩).mono (fun e _ he => ?_)
      fun last l' ⟨hm, _, past', hc, hs'⟩ => ⟨hm, trivial, ⟨l'.tracked, false⟩ :: past', ?_, ?_⟩
    · exact he.imp_right fun ⟨w, hc, hw⟩ => ⟨w, hc.error_bind, hw⟩
    · rw [hc.ok_bind, (comes_setStep hs'.loops).ok_bind]
      exact .pure last _
    · exact ⟨hs'.origin, hs'.moves, hs'.loops, hs'.note false⟩

/-- What is done between the two ends of a loop is done with the step of the loop in its frame, and
    what follows does not look at the step. -/
theorem follows_inLoop {l : Lowering} {frame : LoopFrame} {label : String} {c : Nat → Watch BlockId}
    {x : Lower BlockId} {c' : Nat → BlockId → Watch BlockId} {x' : BlockId → Lower BlockId}
    {d : Nat → BlockId → LoopFrame → Watch β} {f : BlockId → LoopFrame → Lower β}
    {Q S : BlockId → Lowering → Prop} {R : β → Lowering → Prop}
    (h : Follows p (frame.step :: steps) c x { l with loops := frame :: l.loops } Q)
    (h' : ∀ b l', Q b l' → Follows p (frame.step :: steps) (fun n => c' n b) (x' b) l' S)
    (hf : ∀ b l' fr rest, S b l' → l'.loops = fr :: rest → ∀ step,
      Follows p steps (fun n => d n b { fr with step := step }) (f b fr)
        { l' with loops := rest } R) :
    Follows p steps
      (fun n => do
        op (Lower.pushLoop frame)
        let last ← c n
        let last ← c' n last
        let fr ← op (Lower.popLoop label)
        d n last fr)
      (do
        Lower.pushLoop frame
        let last ← x
        let last ← x' last
        let fr ← Lower.popLoop label
        f last fr) l R := by
  intro s past hs
  let l₀ : Lowering := { l with loops := frame :: l.loops }
  have hs₀ : Ready p (frame.step :: steps) s l₀ (⟨l.tracked, false⟩ :: past) :=
    ⟨hs.origin, hs.moves, congrArg (· + 1) hs.loops, hs.note false⟩
  have hpush : Course.Comes (fun _ => op (Lower.pushLoop frame)) ⟨l.withSteps steps, past⟩
      (.ok () ⟨l₀.withSteps (frame.step :: steps), ⟨l.tracked, false⟩ :: past⟩) :=
    .of_outcome fun _ => rfl
  rw [hpush.ok_bind, Leaves.bind_iff]
  show Leaves (x >>= fun a => x' a >>= fun a => Lower.popLoop label >>= f a) l₀ _ _
  simp only [← bind_assoc (c _)]
  rw [← bind_assoc x, Leaves.bind_iff]
  have hboth : Follows p (frame.step :: steps) (fun n => c n >>= c' n) (x >>= x') l₀ S :=
    .bind h fun b l' _ _ hq => h' b l' hq
  refine (hboth s _ hs₀).mono (fun e _ he => ?_) fun a l₁ ⟨hm, hq, past₁, hc, hs₁⟩ => ?_
  · exact he.imp_right fun ⟨w, hc, hw⟩ => ⟨w, hc.error_bind, hw⟩
  rw [hc.ok_bind]
  obtain ⟨bench, loops, n⟩ := l₁
  cases loops with
  | nil => cases hs₁.loops
  | cons fr rest =>
    let l₂ : Lowering := ⟨bench, rest, n⟩
    have hpop : Course.Comes (fun _ => op (Lower.popLoop label))
        ⟨Lowering.withSteps ⟨bench, fr :: rest, n⟩ (frame.step :: steps), past₁⟩
        (.ok { fr with step := frame.step } ⟨l₂.withSteps steps, ⟨bench.tracked, false⟩ :: past₁⟩) :=
      .of_outcome fun _ => rfl
    rw [hpop.ok_bind]
    have hs₂ : Ready p steps s l₂ (⟨bench.tracked, false⟩ :: past₁) :=
      ⟨hs₁.origin, hs₁.moves, Nat.succ.inj hs₁.loops, hs₁.note false⟩
    exact (hf a _ fr rest hq rfl frame.step s _ hs₂).mono (fun _ _ he => he)
      fun b l' ⟨hm', hq, hc'⟩ => ⟨hm.trans hm', hq, hc'⟩

/-- **A loop**, given what lowers its body and its step. -/
theorem passes_loop {step body : List Stmt} {between inside : BlockId → Lower BlockId}
    (hbody : Passes p (step :: steps) (fun n b => lowerStmts n p body b) inside)
    (hstep : Passes p (step :: steps) (fun n b => lowerStep n p b) between)
    (construct : String) (cond : Expr) :
    Passes p steps (fun n b => loop n p construct cond step body b)
      (Lower.loop construct cond step inside between) := by
  refine .deeper ⟨Lower.inherits_loop hbody.inherits hstep.inherits _ _ _, fun {_ l b} hsite => ?_⟩
  obtain ⟨A, hsite, hb⟩ := hsite.exact
  unfold loop Lower.loop
  refine .bind (follows_look (.of_build _) (Lower.keeps_knownCondition cond))
    fun known l₀ _ _ h₀ => ?_
  subst h₀
  refine .ite (fun _ => .pure trivial) fun _ => ?_
  refine .bind ((traces_freshLabel _).still (A := A) fun _ => rfl) fun label l₁ _ _ h₁ => ?_
  refine .bind (follows_newBlock (hb.along h₁) _) fun head l₂ _ _ ⟨h₂, hhead⟩ => ?_
  refine .bind (follows_newBlock hhead _) fun first l₃ _ _ ⟨h₃, hfirst⟩ => ?_
  have hb₃ := ((hb.along h₁).along h₂).along h₃
  refine .bind (follows_jump hb₃.under.live (hhead.along h₃)) fun _ l₄ _ _ h₄ => ?_
  have hhead₄ := (hhead.along h₃).along h₄
  refine .bind (follows_loopTest hhead₄ (hfirst.along h₄) _ _ _)
    fun exit? l₅ _ _ ⟨h₅, hexit⟩ => ?_
  refine .bind ((traces_sealBlock first).still (A := A) (Lower.compositional_still.sealBlock first))
    fun _ l₆ _ _ h₆ => ?_
  have hfirst₆ := ((hfirst.along h₄).along h₅).along h₆
  have hhead₆ := (hhead₄.along h₅).along h₆
  have hopen := hsite.next
    (((((h₁.trans h₂).trans h₃).trans h₄).trans h₅).trans h₆) hfirst₆.under
  have hinside : Site A { l₆ with loops := ⟨label, head, [], step⟩ :: l₆.loops } first :=
    ⟨hfirst₆.under, fun hA => List.forall_mem_cons.2 ⟨hhead₆.live hA, hopen.heads hA⟩⟩
  refine follows_inLoop (hbody.run hinside) (S := fun last l' => Descends A
      { l₆ with loops := ⟨label, head, [], step⟩ :: l₆.loops } l' ∧ Site A l' last)
    (fun last l' hq => (hstep.run hq.2).mono fun _ _ h => ⟨hq.1.trans h.1, h.2⟩)
    fun last l₇ f rest ⟨h₇, hlast⟩ hl step => ?_
  obtain ⟨h₆₇, hf, hbreaks⟩ := h₇.close hl
  refine .bind (follows_jump (l := { l₇ with loops := rest }) hlast.under.live
    (hhead₆.along h₆₇)) fun _ l₈ _ _ h₈ => ?_
  have h₆₈ := h₆₇.trans h₈
  refine .bind (follows_loopExit (hbreaks.imp (fun e => by rw [e]) id) (hf ▸ hhead₆.along h₆₈)
    (fun exit he => ((hexit exit he).along h₆).along h₆₈) step) fun exit l₉ _ _ _ => ?_
  exact .bind (traces_sealBlock exit l₉) fun _ _ _ _ _ => .pure trivial

theorem passes_continueLoop {advance : BlockId → Lower BlockId}
    (ha : Passes p steps (fun n b => lowerStep n p b) advance) :
    Passes p steps (fun n b => continueLoop n p b) (Lower.continueLoop advance) := by
  refine .deeper ⟨Lower.inherits_continueLoop ha.inherits, fun {A l b} hb => ?_⟩
  unfold continueLoop Lower.continueLoop
  refine .noted_look fun hlen => ?_
  obtain ⟨bench, loops, n⟩ := l
  cases loops with
  | nil => exact .throw _
  | cons f rest =>
    cases steps with
    | nil => cases hlen
    | cons step steps =>
      refine .bind (ha.run hb) fun last l₁ _ _ ⟨h₁, hlast⟩ => ?_
      -- if the block is live, so is the head of the loop
      have hmoves : Follows p (step :: steps) (fun _ => build (Edit.addEdge last none f.head))
          (liftM (Edit.addEdge last none f.head)) l₁ fun _ _ => True :=
        .op (.of_build _) fun _ => (Lower.moves_addEdge (fun hlive => h₁.kind
          (hb.heads (hlast.under.live hlive) f.head List.mem_cons_self)) fun _ ho => by
            cases ho).mono fun _ _ hm => ⟨hm, trivial⟩
      exact .bind hmoves fun _ l₂ _ _ _ => traces_deadBlock l₂

/-! ## 6. All statements -/

/-- An arm whose condition is a truth value. -/
theorem follows_arm {body : List Stmt} {inside : BlockId → Lower BlockId}
    (hbody : Passes p steps (fun n b => lowerStmts n p body b) inside) {A : Prop} {l : Lowering}
    {b join : BlockId} (hsite : Site A l b) (hb : LiveIff A l b) (hjoin : LiveIff A l join)
    {label : String} {cond : Option Operand}
    (hc : ∀ o, cond = some o → l.tracked.graph.typeOf? o = some .bit) :
    Follows p steps (fun n => arm n p label b join cond body)
      (Lower.arm label b join cond body.isEmpty inside) l fun _ l' => Descends A l l' := by
  refine .deeper ?_
  unfold arm Lower.arm
  refine .ite (fun _ => follows_addEdge hb.under.live hjoin hc) fun _ => ?_
  refine .bind (follows_newBlock hb label) fun first l₁ hl hm ⟨h₁, hfirst⟩ => ?_
  refine .bind (follows_addEdge (hb.along h₁).under.live hfirst fun o ho =>
    hm.keepsTypes hl _ _ (hc o ho)) fun _ l₂ _ _ h₂ => ?_
  refine .bind ((traces_sealBlock first).still (A := A) (Lower.compositional_still.sealBlock first))
    fun _ l₃ _ _ h₃ => ?_
  have h₀₃ := (h₁.trans h₂).trans h₃
  refine .bind (hbody.run (hsite.next h₀₃ ((hfirst.along h₂).along h₃).under))
    fun last l₄ _ _ ⟨h₄, hlast⟩ => ?_
  exact (follows_jump hlast.under.live ((hjoin.along h₀₃).along h₄)).mono fun _ _ h₅ =>
    (h₀₃.trans h₄).trans h₅

/-- Where a loop has no step, nothing is lowered between its rounds. -/
theorem passes_noStep : Passes p ([] :: steps) (fun n b => lowerStep n p b) Pure.pure := by
  refine passes_lowerStep (.deeper (.of_traces .pure fun b => ?_))
  unfold lowerStmts
  exact .pure b

mutual

/-- **A statement is lowered freely as it is lowered.** -/
theorem passes_lowerStmt (s : Stmt) {steps : List (List Stmt)} {advance : BlockId → Lower BlockId}
    (ha : Passes p steps (fun n b => lowerStep n p b) advance) :
    Passes p steps (fun n b => lowerStmt n p s b) (Lower.lowerStmt p advance s) := by
  refine .deeper ⟨Lower.inherits_lowerStmt p s ha.inherits, fun {_ l b} hsite => ?_⟩
  match s with
  | .assign x ss e =>
    unfold lowerStmt Lower.lowerStmt
    exact traces_assign x ss e b l
  | .read q x =>
    unfold lowerStmt Lower.lowerStmt
    exact traces_portRead q x b l
  | .write q e =>
    unfold lowerStmt Lower.lowerStmt
    exact traces_portWrite q e b l
  | .branch arms otherwise =>
    obtain ⟨A, hsite, hb⟩ := hsite.exact
    unfold lowerStmt Lower.lowerStmt
    refine .bind ((traces_freshLabel _).still (A := A) fun _ => rfl) fun label l₁ _ _ h₁ => ?_
    refine .bind (follows_newBlock (hb.along h₁) _) fun join l₂ _ _ ⟨h₂, hjoin⟩ => ?_
    have h₀₂ := h₁.trans h₂
    have hb₂ := hb.along h₀₂
    refine .bind (follows_lowerArms arms ha (hsite.next h₀₂ hb₂.under) hb₂ hjoin label 0)
      fun closed l₃ _ _ h₃ => ?_
    have hend : Traces p steps (fun n => do
        sealJoin n join
        Pure.pure join) (do
        Lower.sealJoin join
        Pure.pure join) := .bind (traces_sealJoin join) fun _ => .pure join
    refine .ite (fun _ => ?_) fun _ => hend l₃
    have hb₃ := hb₂.along h₃
    refine .bind (follows_arm (passes_lowerStmts otherwise ha)
      (hsite.next (h₀₂.trans h₃) hb₃.under) hb₃ (hjoin.along h₃) fun o ho => by cases ho)
      fun _ l₄ _ _ _ => hend l₄
  | .whileLoop cond body =>
    unfold lowerStmt Lower.lowerStmt
    exact (passes_loop (passes_lowerStmts body passes_noStep) passes_noStep _ _).follows hsite
  | .forLoop init cond step body =>
    unfold lowerStmt Lower.lowerStmt
    have hstep : Passes p (step :: steps) (fun n b => lowerStep n p b)
        (Lower.lowerStmts p Pure.pure step) :=
      passes_lowerStep (passes_lowerStmts step passes_noStep)
    refine .bind ((passes_lowerStmts init ha).run hsite) fun start l₁ _ _ ⟨_, hstart⟩ => ?_
    exact (passes_loop (passes_lowerStmts body hstep) hstep _ _).follows hstart
  | .breakLoop =>
    unfold lowerStmt Lower.lowerStmt
    exact traces_breakLoop b l
  | .continueLoop =>
    unfold lowerStmt Lower.lowerStmt
    exact (passes_continueLoop ha).follows hsite

theorem passes_lowerStmts (ss : List Stmt) {steps : List (List Stmt)}
    {advance : BlockId → Lower BlockId}
    (ha : Passes p steps (fun n b => lowerStep n p b) advance) :
    Passes p steps (fun n b => lowerStmts n p ss b) (Lower.lowerStmts p advance ss) := by
  refine .deeper ⟨Lower.inherits_lowerStmts p ss ha.inherits, fun {_ l b} hsite => ?_⟩
  match ss with
  | [] =>
    unfold lowerStmts Lower.lowerStmts
    exact .pure trivial
  | s :: ss =>
    unfold lowerStmts Lower.lowerStmts
    refine .bind ((passes_lowerStmt s ha).run hsite) fun next l₁ _ _ ⟨_, hnext⟩ => ?_
    exact (passes_lowerStmts ss ha).follows hnext

theorem follows_lowerArms (arms : List (Expr × List Stmt)) {steps : List (List Stmt)}
    {advance : BlockId → Lower BlockId}
    (ha : Passes p steps (fun n b => lowerStep n p b) advance) {A : Prop} {l : Lowering}
    {b join : BlockId} (hsite : Site A l b) (hb : LiveIff A l b) (hjoin : LiveIff A l join)
    (label : String) (i : Nat) :
    Follows p steps (fun n => lowerArms n p label b join i arms)
      (Lower.lowerArms p advance label b join i arms) l fun _ l' => Descends A l l' := by
  refine .deeper ?_
  match arms with
  | [] =>
    unfold lowerArms Lower.lowerArms
    exact .pure (.refl l)
  | (cond, body) :: rest =>
    unfold lowerArms Lower.lowerArms
    have hrest : ∀ l', Descends A l l' → Follows p steps
        (fun n => lowerArms n p label b join (i + 1) rest)
        (Lower.lowerArms p advance label b join (i + 1) rest) l' fun _ l'' => Descends A l l'' := by
      intro l' h
      have hb' := hb.along h
      exact (follows_lowerArms rest ha (hsite.next h hb'.under) hb' (hjoin.along h) label
        (i + 1)).mono fun _ _ h' => h.trans h'
    have hbody := passes_lowerStmts body ha
    refine .bind (follows_look (.of_build _) (Lower.keeps_knownCondition cond))
      fun known l₁ _ _ h₁ => ?_
    subst h₁
    refine .ite (fun _ => hrest l₁ (.refl l₁)) fun _ => ?_
    refine .ite (fun _ => ?_) fun _ => ?_
    · -- the arm is always taken
      refine .bind (Q := fun test l' => test = none ∧ l' = l₁) (.pure ⟨rfl, rfl⟩)
        fun test l₂ _ _ ⟨htest, h₂⟩ => ?_
      subst htest h₂
      refine .bind (follows_arm hbody hsite hb hjoin fun o ho => by cases ho)
        fun _ l₃ _ _ h₃ => ?_
      exact .ite (fun _ => .pure h₃) fun _ => hrest l₃ h₃
    · refine .bind ((traces_enter b).still (A := A) (Lower.compositional_still.enter b))
        fun _ l₂ _ _ h₂ => ?_
      refine .bind ((follows_lowerCondition cond).also fun _ =>
        descends_still (A := A) (Lower.compositional_still.storing.lowerCondition cond))
        fun c l₃ _ _ ⟨hc, h₃⟩ => ?_
      refine .bind (Q := fun test l' => test = some c ∧ l' = l₃) (.pure ⟨rfl, rfl⟩)
        fun test l₄ _ _ ⟨htest, h₄⟩ => ?_
      subst htest h₄
      have h₁₄ := h₂.trans h₃
      have hb₄ := hb.along h₁₄
      refine .bind (follows_arm hbody (hsite.next h₁₄ hb₄.under) hb₄ (hjoin.along h₁₄)
        fun o ho => ?_) fun _ l₅ _ _ h₅ => ?_
      · cases ho
        exact hc
      · exact .ite (fun _ => .pure (h₁₄.trans h₅)) fun _ => hrest l₅ (h₁₄.trans h₅)

end

/-! ## 7. Programs -/

/-- Outside of all loops nothing is lowered between rounds. -/
theorem passes_noLoop : Passes p [] (fun n b => lowerStep n p b) Pure.pure := by
  refine .deeper ⟨.pure, fun {A l b} _ s past hs => ?_⟩
  have hloops : (l.withSteps []).loops = [] := List.zipWith_nil_right
  unfold lowerStep
  rw [(Course.Comes.get _).ok_bind, hloops]
  exact Follows.pure trivial s past hs

/-- The note where a program ends. -/
theorem traces_exit (b : BlockId) :
    Traces p steps (fun _ => build (Build.onGraph (modify fun g => { g with exit := some b })))
      (liftM (Build.onGraph (modify fun g => { g with exit := some b }))) := by
  refine fun l => .build fun _ => ?_
  have halike :
      l.tracked.Alike { l.tracked with graph := { l.tracked.graph with exit := some b } } :=
    ⟨⟨(Graph.Alike.refl l.tracked.graph).value, rfl, rfl, rfl, rfl, rfl⟩, rfl, rfl, rfl, rfl, rfl⟩
  exact ⟨.single (.alike halike rfl), trivial⟩

/-- **A program is lowered freely as it is lowered.** -/
theorem traces_program : Traces p [] (fun n => program n p) (Lower.program p) := by
  have hbody : ∀ entry {l : Lowering}, (∃ k, l.bench.graph.kind? entry = some k) → Follows p []
      (fun n => do
        let exit ← lowerStmts n p p.body entry
        build (Build.onGraph (modify fun g => { g with exit := some exit }))
        Pure.pure exit)
      (do
        let exit ← Lower.lowerStmts p (Lower.innermostAdvance p (← get).loops) p.body entry
        (Build.onGraph (modify fun g => { g with exit := some exit }) : Lower Unit)
        Pure.pure exit) l fun _ _ => True := by
    intro entry l ⟨k, hk⟩ s past hs
    have hloops : l.loops = [] := List.eq_nil_of_length_eq_zero hs.loops
    -- no loop is open, so that nothing is asked of their heads
    have hsite : Site True l entry := by
      refine ⟨⟨k, hk, fun _ => trivial⟩, fun _ c hc => ?_⟩
      rw [hloops] at hc
      cases hc
    rw [Leaves.bind_iff]
    show Leaves (Lower.lowerStmts p (Lower.innermostAdvance p l.loops) p.body entry >>= _) l _ _
    rw [hloops]
    exact Follows.bind ((passes_lowerStmts p.body passes_noLoop).follows hsite)
      (fun exit l₁ _ _ _ => Traces.bind (traces_exit exit) (fun _ => .pure exit) l₁) s past hs
  intro l
  refine .look fun _ past => ?_
  have hblock : Follows p [] (fun _ => build (Edit.block l.bench.graph.entry))
      (liftM (Edit.block l.bench.graph.entry)) l fun _ l' => l' = l ∧
        ∃ k, l.bench.graph.kind? l.bench.graph.entry = some k :=
    .build fun _ => (Build.ends_edit _).2 (Edit.ends_block_or trivial fun y hy =>
      ⟨.refl _, rfl, y.kind, Graph.kind?_of_block? hy⟩)
  refine .bind hblock fun y l₁ _ _ ⟨h₁, k, hk⟩ => ?_
  subst h₁
  refine .ite (fun _ => ?_) fun _ => hbody _ ⟨k, hk⟩
  refine .bind ((traces_sealBlock _).still (A := True) (Lower.compositional_still.sealBlock _))
    fun _ l₂ _ _ h₂ => ?_
  exact hbody _ ⟨k, h₂.kind hk⟩

end Watch

/-! ## 8. The whole lowering -/

/-- Graph and tables are as between two programs: consistent and sheltered, and no loop is open. -/
structure Lowering.AtRest (l : Lowering) : Prop extends l.tracked.Founded where
  loops : l.loops = []

theorem Lowering.AtRest.start (p : Program) (s : Settings) : (Lowering.start p s).AtRest :=
  ⟨.start p s, rfl⟩

/-- A lowering at rest is ready for a program. -/
theorem Lowering.AtRest.ready {l : Lowering} (h : l.AtRest) (p : Program) :
    Watch.Ready p [] l.tracked l [] :=
  ⟨h.toFounded, .refl _, congrArg List.length h.loops, fun _ ht => by cases ht⟩

/-- **A program is lowered by moves**, up to the note where it ends. -/
theorem Lower.moves_program {p : Program} {l l' : Lowering} {b : BlockId} (hl : l.AtRest)
    (run : (Lower.program p).run l = .ok b l') :
    ∃ t : Tracked, Moves p l.tracked t ∧
      l'.tracked = { t with graph := { t.graph with exit := some b } } := by
  have hmoves := (Watch.traces_program l _ [] (hl.ready p)).of_ok run
  have hexit : l'.bench.graph.exit = some b := by
    have hends : Ends (Lower.program p) l (fun _ => True) fun b l' =>
        l'.bench.graph.exit = some b := by
      refine .skip fun _ _ => .skip fun _ _ => ?_
      split
      · exact .skip fun _ _ => .skip fun _ _ => .skip fun _ _ => rfl
      · exact .skip fun _ _ => .skip fun _ _ => rfl
    exact hends.of_ok run
  refine ⟨l'.tracked, hmoves.1, ?_⟩
  rw [← hexit]
  rfl

namespace Program

variable {p : Program} {s : Settings}

/-- A lowering that succeeds passes the check, and one that fails has not reached a bound. -/
theorem ends_bounded (p : Program) (s : Settings) :
    Ends (Lower.program p) (.start p s) (fun e => e ≠ .endless) fun _ l => l.finish = .ok () := by
  -- which world the program runs in does not matter here
  have hends : Ends (Lower.program p) (.start p s) Refused fun b l => ∃ p₁ l₁ p₂ l₂,
      Lower.ProgramMade .zero False p b p₁ l₁ p₂ l₂ ∧ l = Lower.noteExit l₂ b :=
    Lower.ends_program .zero s False.elim False.elim
  unfold Ends
  cases hrun : (Lower.program p).run (.start p s) with
  | error e l =>
    have hrefused : Refused e := hends.of_error hrun
    rintro rfl
    cases hrefused
  | ok b l =>
    obtain ⟨p₁, l₁, p₂, l₂, h, rfl⟩ := hends.of_ok hrun
    exact h.finish

/-- **The free lowering goes the way of the bounded one**, by moves from the start. -/
theorem leaves_program (p : Program) (s : Settings) :
    Leaves (Lower.program p) (.start p s)
      (fun e l => ∃ w, Course.Comes (fun n => Watch.program n p) ⟨.start p s, []⟩ (.error e w) ∧
        w.now.bench = l.bench ∧ ∀ n ∈ w.past, Moves p (Lowering.start p s).tracked n.state)
      fun b l => ∃ past,
        Course.Comes (fun n => Watch.program n p) ⟨.start p s, []⟩ (.ok b ⟨l, past⟩) ∧
          Moves p (Lowering.start p s).tracked l.tracked ∧
          ∀ n ∈ past, Moves p (Lowering.start p s).tracked n.state := by
  have hfollows := Watch.traces_program (.start p s) _ [] (Lowering.AtRest.start p s |>.ready p)
  unfold Leaves
  cases hrun : (Lower.program p).run (.start p s) with
  | error e l => exact (hfollows.of_error hrun).resolve_left ((ends_bounded p s).of_error hrun)
  | ok b l =>
    obtain ⟨-, -, past, hcomes, hready⟩ := hfollows.of_ok hrun
    have hl : l.withSteps [] = l := by
      obtain ⟨bench, loops, n⟩ := l
      cases List.eq_nil_of_length_eq_zero hready.loops
      rfl
    rw [hl] at hcomes
    exact ⟨past, hcomes, hready.moves, hready.logged⟩

/-- **Some depth is enough for a lowering**: from there on its course has one outcome, and what
    comes of it is the answer or the fault that the lowering has under its bounds. -/
theorem exists_course (p : Program) (s : Settings) :
    ∃ r, (∃ n, ∀ m, n ≤ m → p.course s m = some r) ∧ s.conclude r = p.lower s := by
  cases hrun : (Lower.program p).run (.start p s) with
  | error e l =>
    obtain ⟨w, hcomes, -⟩ := (leaves_program p s).of_error hrun
    refine ⟨_, hcomes, ?_⟩
    rw [lower_of_error hrun]
    rfl
  | ok b l =>
    obtain ⟨past, hcomes, -⟩ := (leaves_program p s).of_ok hrun
    refine ⟨_, hcomes, ?_⟩
    rw [lower, hrun]
    rfl

/-- **Every state between two operations is reached by moves.** -/
theorem Meets.moves {t : Tracked} (ht : p.Meets s t) : Moves p (Lowering.start p s).tracked t := by
  obtain ⟨n, hn⟩ := ht
  cases hrun : (Lower.program p).run (.start p s) with
  | error e l =>
    obtain ⟨w, ⟨k, hk⟩, -, hw⟩ := (leaves_program p s).of_error hrun
    have hmem := hn (max n k) (Nat.le_max_left n k)
    unfold journal course at hmem
    rw [hk _ (Nat.le_max_right n k)] at hmem
    obtain ⟨note, hnote, rfl⟩ := List.mem_map.1 hmem
    exact hw note hnote
  | ok b l =>
    obtain ⟨past, ⟨k, hk⟩, hlast, hpast⟩ := (leaves_program p s).of_ok hrun
    have hmem := hn (max n k) (Nat.le_max_left n k)
    unfold journal course at hmem
    rw [hk _ (Nat.le_max_right n k)] at hmem
    obtain rfl | hmem := List.mem_cons.1 hmem
    · exact hlast
    · obtain ⟨note, hnote, rfl⟩ := List.mem_map.1 hmem
      exact hpast note hnote

/-- The last state of a lowering that comes to its end is one of them. -/
theorem meets_of_run {b : BlockId} {l : Lowering}
    (run : (Lower.program p).run (.start p s) = .ok b l) : p.Meets s l.tracked := by
  obtain ⟨past, ⟨n, hn⟩, -⟩ := (leaves_program p s).of_ok run
  refine ⟨n, fun m hm => ?_⟩
  unfold journal course
  rw [hn m hm]
  exact List.mem_cons_self

theorem meets_of_lower {r : Lowered} (h : p.lower s = .ok r) :
    ∃ t, p.Meets s t ∧ t.graph = r.graph := by
  obtain ⟨b, l, run, rfl⟩ := run_of_lower h
  exact ⟨l.tracked, meets_of_run run, rfl⟩

end Program

end BitFlow
