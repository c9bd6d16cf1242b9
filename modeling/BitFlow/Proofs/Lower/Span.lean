import BitFlow.Proofs.Play.Basic

/-!
# What lowering a statement does to the plan

A statement is lowered at a block that is sealed and has no jump yet. Lowering it changes that block
and adds new ones; all other blocks stay as they are. It ends at a block that is in the same state,
or in which nothing can be. The loops that are open stay open and may get further breaks.

What the lowered statement does is told about every play of a plan that finishes this one: control
follows the statement.

Main statements: `Spans.trans`, `Simulates.trans` -- statements one after the other.
-/

namespace BitFlow

/-! ## 1. Blocks that stay as they are -/

/-- The two plans agree on a block. -/
structure SameBlock (p p' : Plan) (c : BlockId) : Prop where
  code : p'.code c = p.code c
  writes : p'.writes c = p.writes c
  jumps : p'.jumps c = p.jumps c
  dead : p'.dead c = p.dead c
  closed : p'.closed c = p.closed c

namespace SameBlock

variable {p p' p'' : Plan} {b c : BlockId}

theorem refl (p : Plan) (c : BlockId) : SameBlock p p c := ⟨rfl, rfl, rfl, rfl, rfl⟩

theorem trans (h : SameBlock p p' c) (h' : SameBlock p' p'' c) : SameBlock p p'' c :=
  ⟨h'.code.trans h.code, h'.writes.trans h.writes, h'.jumps.trans h.jumps, h'.dead.trans h.dead,
    h'.closed.trans h.closed⟩

theorem block (hc : c.index < p.count) (dead : Bool) : SameBlock p (p.block dead) c :=
  ⟨rfl, rfl, rfl, Plan.dead_block_of_lt hc dead, rfl⟩

theorem jump (h : c ≠ b) (cond : Option Operand) (a : BlockId) : SameBlock p (p.jump b cond a) c := by
  unfold Plan.jump
  split
  · exact .refl p c
  · exact ⟨rfl, rfl, Plan.jumps_link_of_ne h cond a, rfl, rfl⟩

theorem close (h : c ≠ b) (R : Roles) : SameBlock p (p.close b R) c :=
  ⟨rfl, rfl, rfl, rfl, Plan.closed_close_of_ne h R⟩

theorem kill (h : c ≠ b) : SameBlock p (p.kill b) c :=
  ⟨rfl, rfl, rfl, Function.update_of_ne h _ _, rfl⟩

theorem extend (h : c ≠ b) (R : Roles) (new : List ValueId) : SameBlock p (p.extend b R new) c :=
  ⟨Plan.code_extend_of_ne h R new, rfl, rfl, rfl, rfl⟩

theorem write (h : c ≠ b) (x : VarId) (o : Operand) : SameBlock p (p.write b x o) c := by
  refine ⟨rfl, ?_, rfl, rfl, rfl⟩
  funext y
  exact if_neg fun e => h e.1

end SameBlock

/-! ## 2. Open loops -/

/-- What the plan promises about an open loop: its head waits for further edges, and the blocks that
    leave it are live and have no jump yet. -/
structure OpenLoop (p : Plan) (f : LoopFrame) : Prop where
  known : f.head.index < p.count
  waits : p.closed f.head = false
  inner : f.head ≠ Plan.entry
  breaks : ∀ c ∈ f.breaks, c.index < p.count ∧ p.dead c = false ∧ p.Reached c ∧ p.jumps c = [] ∧
    p.dead f.head = false

/-- The open loops with further breaks of the innermost one. -/
def withBreaks (extra : List BlockId) : List LoopFrame → List LoopFrame
  | [] => []
  | f :: rest => { f with breaks := f.breaks ++ extra } :: rest

theorem withBreaks_nil (fs : List LoopFrame) : withBreaks [] fs = fs := by
  cases fs with
  | nil => rfl
  | cons f rest =>
    show { f with breaks := f.breaks ++ [] } :: rest = f :: rest
    rw [List.append_nil]

theorem withBreaks_append (e e' : List BlockId) (fs : List LoopFrame) :
    withBreaks e' (withBreaks e fs) = withBreaks (e ++ e') fs := by
  cases fs with
  | nil => rfl
  | cons f rest =>
    unfold withBreaks
    simp only [List.append_assoc]

/-- The block in which the next round of the innermost loop begins. -/
def innermostHead (fs : List LoopFrame) : Option BlockId := fs.head?.map LoopFrame.head

theorem innermostHead_withBreaks (extra : List BlockId) (fs : List LoopFrame) :
    innermostHead (withBreaks extra fs) = innermostHead fs := by
  cases fs <;> rfl

/-- **Where a statement can be lowered**: the block is sealed and has no jump, and if it is live
    control can be in it. -/
structure Good (b : BlockId) (p : Plan) (l : Lowering) : Prop where
  built : Built p l.tracked
  here : b.index < p.count
  closed : p.closed b = true
  free : p.jumps b = []
  live : p.dead b = false → p.Reached b ∧ ∀ f ∈ l.loops, p.dead f.head = false
  loops : ∀ f ∈ l.loops, OpenLoop p f ∧ b ∉ f.breaks

/-! ## 3. What lowering changes -/

/-- **What lowering from `b` on to `b'` leaves of the plan before.** -/
structure Spans (b : BlockId) (p : Plan) (l : Lowering) (extra : List BlockId) (b' : BlockId)
    (p' : Plan) (l' : Lowering) : Prop where
  leads : Leads p l p' l'
  loops : l'.loops = withBreaks extra l.loops
  outside : l.loops = [] → extra = []
  count : p.count ≤ p'.count
  frame : ∀ c : BlockId, c.index < p.count → c ≠ b → SameBlock p p' c
  dead : p'.dead b = p.dead b
  closed : p'.closed b = p.closed b
  code : p.code b <+: p'.code b
  fresh : ∀ c : BlockId, p.count ≤ c.index → c.index < p'.count → p'.closed c = true
  next : b' = b ∨ p.count ≤ b'.index
  live : p'.dead b' = false → p.dead b = false
  extra : ∀ c ∈ extra, c = b ∨ p.count ≤ c.index

section Spans

variable {b b₁ b₂ : BlockId} {p p₁ p₂ : Plan} {l l₁ l₂ : Lowering} {e e₁ e₂ : List BlockId}

/-- Nothing that was there before is the block where lowering ends, but for the first one. -/
theorem Spans.ne_next (h : Spans b p l e b₁ p₁ l₁) {c : BlockId} (hc : c.index < p.count)
    (hb : c ≠ b) : c ≠ b₁ := by
  rintro rfl
  rcases h.next with e | e
  · exact hb e
  · exact absurd hc (Nat.not_lt_of_le e)

/-- Edges are kept. -/
theorem Spans.edge (h : Spans b p l e b₁ p₁ l₁) (hg : Good b p l) {q c : BlockId}
    (he : p.Edge q c) : p₁.Edge q c := by
  obtain ⟨br, hbr, ht⟩ := he
  have hq : q ≠ b := by
    rintro rfl
    rw [hg.free] at hbr
    cases hbr
  refine ⟨br, ?_, ht⟩
  rw [(h.frame q (hg.built.edge_known ⟨br, hbr, ht⟩).1 hq).jumps]
  exact hbr

theorem Spans.refl (h : Built p l.tracked) : Spans b p l [] b p l where
  leads := .refl h
  loops := (withBreaks_nil _).symm
  outside := fun _ => rfl
  count := Nat.le_refl _
  frame := fun c _ _ => .refl p c
  dead := rfl
  closed := rfl
  code := List.prefix_rfl
  fresh := fun _ h1 h2 => absurd h2 (Nat.not_lt_of_le h1)
  next := .inl rfl
  live := id
  extra := fun _ hc => by cases hc

/-- The block where lowering ends was there before only if it is the first one. -/
theorem Spans.region (h : Spans b p l e b₁ p₁ l₁) {c : BlockId}
    (hc : c = b₁ ∨ p₁.count ≤ c.index) : c = b ∨ p.count ≤ c.index := by
  rcases hc with rfl | hc
  · exact h.next
  · exact .inr (Nat.le_trans h.count hc)

/-- The first block keeps what it was at the end of the first statement. -/
theorem Spans.code_first (h : Spans b p l e₁ b₁ p₁ l₁) (h' : Spans b₁ p₁ l₁ e₂ b₂ p₂ l₂)
    (hb : b.index < p.count) :
    p₂.dead b = p₁.dead b ∧ p₂.closed b = p₁.closed b ∧ p₁.code b <+: p₂.code b := by
  by_cases e : b = b₁
  · subst e
    exact ⟨h'.dead, h'.closed, h'.code⟩
  · have hs := h'.frame b (Nat.lt_of_lt_of_le hb h.count) e
    rw [hs.dead, hs.closed, hs.code]
    exact ⟨rfl, rfl, List.prefix_rfl⟩

/-- **One statement after the other.** -/
theorem Spans.trans (hb : b.index < p.count) (h : Spans b p l e₁ b₁ p₁ l₁)
    (h' : Spans b₁ p₁ l₁ e₂ b₂ p₂ l₂) : Spans b p l (e₁ ++ e₂) b₂ p₂ l₂ := by
  obtain ⟨hdead, hclosed, hcode⟩ := h.code_first h' hb
  refine ⟨h.leads.trans h'.leads, ?_, fun hl => ?_, Nat.le_trans h.count h'.count,
    fun c hc hne => ?_, hdead.trans h.dead, hclosed.trans h.closed, h.code.trans hcode,
    fun c h1 h2 => ?_, h.region h'.next, fun hlive => h.live (h'.live hlive), fun c hc => ?_⟩
  · rw [h'.loops, h.loops, withBreaks_append]
  · rw [h.outside hl, h'.outside (by rw [h.loops, hl]; rfl)]
    rfl
  · exact (h.frame c hc hne).trans
      (h'.frame c (Nat.lt_of_lt_of_le hc h.count) (h.ne_next hc hne))
  · by_cases hc : c.index < p₁.count
    · by_cases e : c = b₁
      · subst e
        exact h'.closed.trans (h.fresh c h1 hc)
      · exact (h'.frame c hc e).closed.trans (h.fresh c h1 hc)
    · exact h'.fresh c (Nat.le_of_not_lt hc) h2
  · rcases List.mem_append.1 hc with hc | hc
    · exact h.extra c hc
    · exact h.region (h'.extra c hc)

/-- Further breaks are blocks of the plan, other than the one where lowering goes on. -/
theorem Spans.extra_known (h : Spans b p l e b₁ p₁ l₁) (hg : Good b₁ p₁ l₁) {c : BlockId}
    (hc : c ∈ e) : c.index < p₁.count ∧ c ≠ b₁ := by
  cases hl : l.loops with
  | nil =>
    rw [h.outside hl] at hc
    cases hc
  | cons f rest =>
    have hf : { f with breaks := f.breaks ++ e } ∈ l₁.loops := by
      rw [h.loops, hl]
      exact List.mem_cons_self
    obtain ⟨ho, hb⟩ := hg.loops _ hf
    refine ⟨(ho.breaks c (List.mem_append_right _ hc)).1, ?_⟩
    rintro rfl
    exact hb (List.mem_append_right _ hc)

end Spans

/-! ## 4. Plays of a plan that is finished later -/

/-- The play's plan carries on the plan `p`. -/
structure Play.Completes {w : World} {vars : List Variable} (P : Play w vars) (p : Plan)
    (l : Lowering) : Prop where
  models : Models p.toDraft l.tracked P.meaning
  roles : ∀ {v r}, p.roles v = some r → P.plan.roles v = some r
  vars : l.vars = vars
  live : P.plan.dead Plan.entry = false

section Completes

variable {w : World} {vars : List Variable} {P : Play w vars} {p p' : Plan} {l l' : Lowering}

theorem Play.Completes.back (h : P.Completes p' l') (hl : Leads p l p' l') : P.Completes p l :=
  ⟨hl.later.models h.models, fun hv => h.roles (hl.later.roles hv), hl.vars.symm.trans h.vars,
    h.live⟩

theorem Play.Completes.runs (h : P.Completes p l) : Runs w l.vars p.roles P.meaning := by
  rw [h.vars]
  exact P.runs.mono h.roles

theorem Play.Completes.silent (h : P.Completes p l) {v : ValueId} (hv : p.roles.Silent v) :
    P.plan.roles.Silent v := by
  obtain ⟨b, ty, i, hi, hu⟩ := hv
  exact ⟨b, ty, i, h.roles hi, hu⟩

end Completes

/-- **The finished plan `F` agrees with `p` on the blocks between `b` and `b'`**: on `b` and those
    numbered from `n` on, but for the jumps of breaks and for what is still to come in `b'`. -/
structure Agrees (F p : Plan) (n : Nat) (b b' : BlockId) (extra : List BlockId) : Prop where
  code : ∀ c : BlockId, c = b ∨ n ≤ c.index → c.index < p.count → c ≠ b' → F.code c = p.code c
  writes : ∀ c : BlockId, c = b ∨ n ≤ c.index → c.index < p.count → c ≠ b' →
    F.writes c = p.writes c
  dead : ∀ c : BlockId, c = b ∨ n ≤ c.index → c.index < p.count → F.dead c = p.dead c
  jumps : ∀ c : BlockId, c = b ∨ n ≤ c.index → c.index < p.count → c ≠ b' → c ∉ extra →
    F.jumps c = p.jumps c
  here : p.code b' <+: F.code b'

section Agrees

variable {b b₁ b₂ : BlockId} {p p₁ p₂ F : Plan} {l l₁ l₂ : Lowering} {e₁ e₂ : List BlockId}

/-- The finished plan agrees with the plan after the first of two statements. -/
theorem Agrees.first (h : Agrees F p₂ p.count b b₂ (e₁ ++ e₂)) (hs : Spans b p l e₁ b₁ p₁ l₁)
    (hg : Good b₁ p₁ l₁) (hs' : Spans b₁ p₁ l₁ e₂ b₂ p₂ l₂) :
    Agrees F p₁ p.count b b₁ e₁ := by
  have hne : ∀ {c : BlockId}, c.index < p₁.count → c ≠ b₁ → c.index < p₂.count ∧ c ≠ b₂ :=
    fun hc hb => ⟨Nat.lt_of_lt_of_le hc hs'.count, hs'.ne_next hc hb⟩
  refine ⟨fun c hr hc hb => ?_, fun c hr hc hb => ?_, fun c hr hc => ?_, fun c hr hc hb he => ?_, ?_⟩
  · rw [h.code c hr (hne hc hb).1 (hne hc hb).2, (hs'.frame c hc hb).code]
  · rw [h.writes c hr (hne hc hb).1 (hne hc hb).2, (hs'.frame c hc hb).writes]
  · rw [h.dead c hr (Nat.lt_of_lt_of_le hc hs'.count)]
    by_cases e : c = b₁
    · rw [e, hs'.dead]
    · exact (hs'.frame c hc e).dead
  · rw [h.jumps c hr (hne hc hb).1 (hne hc hb).2 fun hm => ?_, (hs'.frame c hc hb).jumps]
    rcases List.mem_append.1 hm with hm | hm
    · exact he hm
    · rcases hs'.extra c hm with e | e
      · exact hb e
      · exact absurd hc (Nat.not_lt_of_le e)
  · by_cases e : b₁ = b₂
    · have := h.here
      rw [← e] at this
      exact hs'.code.trans this
    · rw [h.code b₁ hs.next (Nat.lt_of_lt_of_le hg.here hs'.count) e]
      exact hs'.code

/-- The finished plan agrees with the plan after the second of two statements. -/
theorem Agrees.second (h : Agrees F p₂ p.count b b₂ (e₁ ++ e₂)) (hs : Spans b p l e₁ b₁ p₁ l₁)
    (hg : Good b₁ p₁ l₁) : Agrees F p₂ p₁.count b₁ b₂ e₂ := by
  refine ⟨fun c hr => h.code c (hs.region hr), fun c hr => h.writes c (hs.region hr),
    fun c hr => h.dead c (hs.region hr), fun c hr hc hb he => ?_, h.here⟩
  refine h.jumps c (hs.region hr) hc hb fun hm => ?_
  rcases List.mem_append.1 hm with hm | hm
  · obtain ⟨h1, h2⟩ := hs.extra_known hg hm
    rcases hr with e | e
    · exact h2 e
    · exact absurd h1 (Nat.not_lt_of_le e)
  · exact he hm

end Agrees

/-! ## 5. Simulation -/

/-- Where control is to be after a statement that was lowered up to `b'`. -/
def Play.exits {w : World} {vars : List Variable} (P : Play w vars) (p : Plan) (b : BlockId)
    (extra : List BlockId) (head : Option BlockId) (step : Act) : Exits where
  onward := P.At p b
  leave := fun π μ => ∃ c ∈ extra, P.At p c π μ
  again := fun π μ => ∃ c ∈ head, P.Enters c π μ
  step := step

/-- **Control follows the act** in every play of a plan that finishes this one. -/
def Simulates (w : World) (step act : Act) (b : BlockId) (p : Plan) (l : Lowering)
    (extra : List BlockId) (b' : BlockId) (p' : Plan) (l' : Lowering) : Prop :=
  ∀ {vars : List Variable} (P : Play w vars), P.Completes p' l' →
    Agrees P.plan p' p.count b b' extra → ∀ (n : Nat) {π : List BlockId} {μ : Memory},
      P.At p b π μ → P.Follows (P.exits p' b' extra (innermostHead l.loops) step) π n (act n μ)

theorem Play.At.same {w : World} {vars : List Variable} {P : Play w vars} {p p' : Plan}
    {c : BlockId} {π : List BlockId} {μ : Memory} (h : P.At p c π μ) (hc : p'.code c = p.code c)
    (hw : p'.writes c = p.writes c) : P.At p' c π μ := by
  cases h with
  | mk path store trace =>
    refine ⟨path, ?_, ?_⟩
    · rw [← store]
      unfold Meaning.content
      rw [hw]
    · rw [hc]
      exact trace

/-- **One statement after the other.** -/
theorem Simulates.trans {w : World} {step x y : Act} {b b₁ b₂ : BlockId} {p p₁ p₂ : Plan}
    {l l₁ l₂ : Lowering} {e₁ e₂ : List BlockId} (hs : Spans b p l e₁ b₁ p₁ l₁)
    (hg : Good b₁ p₁ l₁) (hs' : Spans b₁ p₁ l₁ e₂ b₂ p₂ l₂)
    (h : Simulates w step x b p l e₁ b₁ p₁ l₁) (h' : Simulates w step y b₁ p₁ l₁ e₂ b₂ p₂ l₂) :
    Simulates w step (x.andThen y) b p l (e₁ ++ e₂) b₂ p₂ l₂ := by
  intro vars P hP hagree n π μ hat
  have hfirst := h P (hP.back hs'.leads) (hagree.first hs hg hs') n hat
  have hhead : innermostHead l₁.loops = innermostHead l.loops := by
    rw [hs.loops, innermostHead_withBreaks]
  refine hfirst.andThen rfl ?_ .here fun {π' μ'} hat' => ?_
  · rintro π' μ' ⟨c, hc, hat'⟩
    obtain ⟨h1, h2⟩ := hs.extra_known hg hc
    have hsame := hs'.frame c h1 h2
    exact .here ⟨c, List.mem_append_left _ hc, hat'.same hsame.code hsame.writes⟩
  · have hsecond := h' P hP (hagree.second hs hg) n hat'
    rw [hhead] at hsecond
    exact hsecond.mono rfl .here
      (fun ⟨c, hc, hc'⟩ => .here ⟨c, List.mem_append_right _ hc, hc'⟩) .here

/-! ## 6. Lowering actions -/

/-- A fault that the lowering may end with. -/
abbrev Refused (e : Fault) : Prop := e.isRefusal = true

theorem tolerates_refused : Tolerates Refused := fun h => h

/-- **The action lowers `act`**: started where a statement can be lowered it ends where one can be
    lowered, or refuses the program. If `T` holds, control follows `act`; `step` is what leads on to
    the next round of the innermost loop. -/
def Lowers (w : World) (vars : List Variable) (T : Prop) (step act : Act)
    (run : BlockId → Lower BlockId) : Prop :=
  ∀ ⦃b : BlockId⦄ ⦃p : Plan⦄ ⦃l : Lowering⦄, Good b p l → l.vars = vars →
    Ends (run b) l Refused fun b' l' => ∃ p' extra, Good b' p' l' ∧
      Spans b p l extra b' p' l' ∧ (T → Simulates w step act b p l extra b' p' l')

namespace Lowers

variable {w : World} {vars : List Variable} {T : Prop} {step x y : Act}
  {run run' : BlockId → Lower BlockId}

/-- Nothing to lower. -/
theorem pure : Lowers w vars T step .skip (fun b => Pure.pure b) := by
  intro b p l h _
  refine ⟨p, [], h, .refl h.built, fun _ vars P _ _ n π μ hat => ?_⟩
  exact ⟨π, .refl, hat⟩

/-- **One action after the other.** -/
theorem andThen (h : Lowers w vars T step x run) (h' : Lowers w vars T step y run') :
    Lowers w vars T step (x.andThen y) (fun b => run b >>= run') := by
  intro b p l hg hv
  rw [Ends.bind_iff]
  refine (h hg hv).mono fun b₁ l₁ ⟨p₁, e₁, hg₁, hs₁, hsim₁⟩ => ?_
  refine (h' hg₁ (hs₁.leads.vars.trans hv)).mono fun b₂ l₂ ⟨p₂, e₂, hg₂, hs₂, hsim₂⟩ => ?_
  exact ⟨p₂, e₁ ++ e₂, hg₂, hs₁.trans hg.here hs₂,
    fun ht => Simulates.trans hs₁ hg₁ hs₂ (hsim₁ ht) (hsim₂ ht)⟩

end Lowers

end BitFlow
