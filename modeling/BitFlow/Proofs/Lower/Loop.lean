import BitFlow.Proofs.Lower.Exit

/-!
# Lowering loops

The body of a loop and its step are lowered while the head is open; then the end jumps back to the
head and the loop is closed. Control goes round in the loop as long as the condition holds at the
head.

Main statement: `Lower.lowers_loop`.
-/

namespace BitFlow

namespace Lower

variable {w : World} {vars : List Variable} {T : Prop} {b head exit : BlockId} {p : Plan}
  {l : Lowering}

/-! ## 1. The body -/

section Body

variable {first last : BlockId} {exit? : Option BlockId} {test : Store → Bool} {label : String}
  {step : List Stmt} {extra : List BlockId} {p₁ p₂ p₃ : Plan} {l₁ l₂ l₃ : Lowering}

/-- The loop that is open while its body is lowered. -/
def entered (l : Lowering) (label : String) (head : BlockId) (step : List Stmt) : Lowering :=
  { l with loops := ⟨label, head, [], step⟩ :: l.loops }

theorem LoopOpened.edge (h : LoopOpened w T test b head first exit? p l p₁ l₁)
    (hb : Built p l.tracked) {q c : BlockId} (he : p.Edge q c) : p₁.Edge q c := by
  obtain ⟨br, hbr, ht⟩ := he
  refine ⟨br, ?_, ht⟩
  by_cases e : q = b
  · subst e
    rw [h.jumps]
    exact (Plan.jumps_jump ..).subset hbr
  · rw [(h.frame q (hb.edge_known ⟨br, hbr, ht⟩).1 e).jumps]
    exact hbr

/-- Control can be in the head of a loop that was opened in a live block, and go on to the body. -/
theorem LoopOpened.reached (h : LoopOpened w T test b head first exit? p l p₁ l₁) (hg : Good b p l)
    (hlive : p.dead b = false) :
    p₁.Reached head ∧ p₁.Reached first ∧ ∀ e ∈ exit?, p₁.Reached e := by
  have hbh : p₁.Edge b head := by
    refine ⟨⟨none, head⟩, ?_, rfl⟩
    rw [h.jumps, Plan.jumps_jump_self hlive]
    exact List.mem_append_right _ (List.mem_singleton_self _)
  have hhead := ((hg.live hlive).1.mono fun _ _ he => h.edge hg.built he).step hbh
  have hj := h.head_jumps hlive
  cases exit? with
  | none =>
    refine ⟨hhead, hhead.step ⟨⟨none, first⟩, ?_, rfl⟩, fun e he => by cases he⟩
    rw [hj.1]
    exact List.mem_singleton_self _
  | some exit =>
    obtain ⟨c, hc, -⟩ := hj
    refine ⟨hhead, hhead.step ⟨⟨some c, first⟩, ?_, rfl⟩, fun e he => ?_⟩
    · rw [hc]
      exact List.mem_cons_self
    · cases he
      refine hhead.step ⟨⟨none, exit⟩, ?_, rfl⟩
      rw [hc]
      exact List.mem_cons_of_mem _ (List.mem_singleton_self _)

/-- **The body of a loop can be lowered.** -/
theorem LoopOpened.good (h : LoopOpened w T test b head first exit? p l p₁ l₁) (hg : Good b p l) :
    Good first p₁ (entered l₁ label head step) := by
  have hhead : head.index < p₁.count ∧ first.index < p₁.count := by
    rw [h.count, h.head_name, h.first_name]
    omega
  have hedge : ∀ q c, p.Edge q c → p₁.Edge q c := fun _ _ he => h.edge hg.built he
  have hopen : ∀ {f}, f ∈ l.loops → OpenLoop p₁ f ∧ p₁.dead f.head = p.dead f.head := fun hf =>
    (hg.loops _ hf).1.frame hg.closed (hg.loops _ hf).2 (by rw [h.count]; omega) h.frame hedge
  refine ⟨h.leads.built, hhead.2, h.first_closed, h.first_blank.jumps, fun hlive => ?_,
    fun f hf => ?_⟩
  · rw [h.first_dead] at hlive
    refine ⟨(h.reached hg hlive).2.1, fun f hf => ?_⟩
    rcases List.mem_cons.1 hf with rfl | hf
    · exact h.head_dead.trans hlive
    · rw [h.loops] at hf
      exact (hopen hf).2.trans ((hg.live hlive).2 f hf)
  · rcases List.mem_cons.1 hf with rfl | hf
    · refine ⟨⟨hhead.1, h.waits, fun e => ?_, fun c hc => by cases hc⟩, fun hm => by cases hm⟩
      change head = Plan.entry at e
      exact absurd hg.built.entry_known (by rw [← e, h.head_name]; exact Nat.lt_irrefl _)
    · rw [h.loops] at hf
      refine ⟨(hopen hf).1, fun hm => ?_⟩
      exact absurd ((hg.loops f hf).1.breaks first hm).1 (by rw [h.first_name]; omega)

/-- What was there before the body, but for its first block, is not touched by it. -/
theorem same_jump (head : BlockId) (hs : Spans first p₁ l₁ extra last p₂ l₂) {c : BlockId}
    (hc : c.index < p₁.count) (hne : c ≠ first) : SameBlock p₁ (p₂.jump last none head) c :=
  (hs.frame c hc hne).trans (.jump (hs.ne_next hc hne) _ _)

/-- The blocks of a body are new. -/
theorem LoopOpened.region (h : LoopOpened w T test b head first exit? p l p₁ l₁) {c : BlockId}
    (hc : c = first ∨ p₁.count ≤ c.index) : p.count < c.index ∧ ∀ e ∈ exit?, c ≠ e := by
  rcases hc with rfl | hc
  · refine ⟨by rw [h.first_name]; exact Nat.lt_succ_self _, fun e he hce => ?_⟩
    have := (h.exit e he).1
    rw [← hce, h.first_name] at this
    omega
  · have hcount := h.count
    refine ⟨by omega, fun e he hce => ?_⟩
    have h1 := (h.exit e he).1
    have h2 : exit?.toList.length = 1 := by
      rw [Option.mem_def.1 he]
      rfl
    rw [hce, h1] at hc
    omega

/-- **The loop can be closed** once its body has been lowered and jumps to the head. -/
theorem LoopOpened.done (h : LoopOpened w T test b head first exit? p l p₁ l₁) (hg : Good b p l)
    (hs : Spans first p₁ (entered l₁ label head step) extra last p₂ l₂) (hg₂ : Good last p₂ l₂)
    (hl₃ : Leads p₂ l₂ (p₂.jump last none head) l₃) :
    BodyDone ⟨label, head, extra, step⟩ exit? (p₂.jump last none head) l₃ := by
  have hf : ⟨label, head, [] ++ extra, step⟩ ∈ l₂.loops := by
    rw [hs.loops]
    exact List.mem_cons_self
  obtain ⟨ho, hnot⟩ := hg₂.loops _ hf
  have hhf : head.index < p₁.count ∧ head ≠ first := by
    refine ⟨by rw [h.count, h.head_name]; omega, fun e => ?_⟩
    have := h.first_name
    rw [← e, h.head_name] at this
    omega
  have hhead := same_jump head hs hhf.1 hhf.2
  refine ⟨hl₃.built, by rw [Plan.count_jump]; exact ho.known, by rw [Plan.closed_jump]; exact ho.waits,
    fun c hc => ?_, fun e he => ?_⟩
  · obtain ⟨h1, h2, h3, -, h5⟩ := ho.breaks c hc
    rw [Plan.count_jump, Plan.dead_jump]
    exact ⟨h1, h2, h3.mono fun _ _ he => Plan.edge_jump he, h5⟩
  · obtain ⟨h1, h2, h3, h4⟩ := h.exit e he
    have hlt : e.index < p₁.count := by
      have h2 : exit?.toList.length = 1 := by
        rw [Option.mem_def.1 he]
        rfl
      rw [h.count, h1]
      omega
    have hne : e ≠ first := fun e' => (h.region (.inl rfl)).2 e he e'.symm
    have hsame := same_jump head hs hlt hne
    refine ⟨by rw [Plan.count_jump]; exact Nat.lt_of_lt_of_le hlt hs.count, hsame.closed.trans h3,
      fun e' => ?_, fun e' => ?_, fun hm => ?_, h2.same hsame, ?_, fun hlive => ?_⟩
    · have := hg.built.entry_known
      rw [← e', h1] at this
      omega
    · change e = head at e'
      rw [e', h.head_name] at h1
      omega
    · exact (h.region (hs.extra e hm)).2 e he rfl
    · show (p₂.jump last none head).dead e = (p₂.jump last none head).dead head
      rw [hsame.dead, hhead.dead, h4, h.head_dead]
    · change (p₂.jump last none head).dead head = false at hlive
      rw [hhead.dead, h.head_dead] at hlive
      refine ((h.reached hg hlive).2.2 e he).mono fun q c hqc => ?_
      exact Plan.edge_jump (hs.edge (h.good hg) hqc)

end Body

/-! ## 2. The whole loop -/

/-- **A loop was lowered**: opened at `b`, its body and step lowered from `first` to `last`, and
    closed. -/
structure LoopMade (w : World) (T : Prop) (test : Store → Bool) (f : LoopFrame)
    (b first last : BlockId) (exit? : Option BlockId) (exit : BlockId) (p : Plan) (l : Lowering)
    (p₁ : Plan) (l₁ : Lowering) (p₂ : Plan) (l₂ l₂' : Lowering) (p₃ : Plan) (l₃ : Lowering) :
    Prop where
  start : Good b p l
  opened : LoopOpened w T test b f.head first exit? p l p₁ l₁
  round : Spans first p₁ (entered l₁ f.label f.head f.step) f.breaks last p₂ l₂
  ends : Good last p₂ l₂
  jumps : Leads p₂ l₂ (p₂.jump last none f.head) l₂'
  loops : l₂'.loops = l.loops
  closed : LoopClosed f.head f.breaks exit? exit (p₂.jump last none f.head) l₂' p₃ l₃

namespace LoopMade

variable {test : Store → Bool} {f : LoopFrame} {first last : BlockId} {exit? : Option BlockId}
  {p₁ p₂ p₃ : Plan} {l₁ l₂ l₂' l₃ : Lowering}

/-- The block behind a loop is new, and no block of the body. -/
theorem exit_new (h : LoopMade w T test f b first last exit? exit p l p₁ l₁ p₂ l₂ l₂' p₃ l₃) :
    p.count + 2 ≤ exit.index ∧ ∀ c : BlockId, c = first ∨ p₁.count ≤ c.index →
      c.index < p₂.count → c ≠ exit := by
  have hcount := h.opened.count
  have hround := h.round.count
  have hname := h.closed.name
  rw [Plan.count_jump] at hname
  cases hx : exit? with
  | none =>
    rw [hx] at hname
    refine ⟨?_, fun c _ hc e => ?_⟩
    · rw [hname]
      show p.count + 2 ≤ p₂.count
      omega
    · rw [e, hname] at hc
      exact Nat.lt_irrefl _ hc
  | some e =>
    rw [hx] at hname
    change exit = e at hname
    subst hname
    refine ⟨Nat.le_of_eq (h.opened.exit exit hx).1.symm, fun c hr _ => ?_⟩
    exact (h.opened.region hr).2 exit hx

theorem count (h : LoopMade w T test f b first last exit? exit p l p₁ l₁ p₂ l₂ l₂' p₃ l₃) :
    p.count + 2 ≤ p₁.count ∧ p₁.count ≤ p₂.count ∧ p₂.count ≤ p₃.count := by
  have h1 := h.opened.count
  have h3 := h.closed.count
  rw [Plan.count_jump] at h3
  exact ⟨by omega, h.round.count, h3⟩

/-- A block that was there before the loop, and its head, stay as they are after the loop was
    opened. -/
theorem old (h : LoopMade w T test f b first last exit? exit p l p₁ l₁ p₂ l₂ l₂' p₃ l₃)
    {c : BlockId} (hc : c.index ≤ p.count) :
    p₃.code c = p₁.code c ∧ p₃.writes c = p₁.writes c ∧ p₃.dead c = p₁.dead c ∧
      p₃.jumps c = p₁.jumps c ∧ (c ≠ f.head → p₃.closed c = p₁.closed c) := by
  obtain ⟨h1, h2, -⟩ := h.count
  have hfirst : c ≠ first := by
    rintro rfl
    rw [h.opened.first_name] at hc
    omega
  have hsame := same_jump f.head h.round (show c.index < p₁.count by omega) hfirst
  have hlt : c.index < (p₂.jump last none f.head).count := by
    rw [Plan.count_jump]
    omega
  have hnot : c ∉ f.breaks := fun hm => by
    have := (h.opened.region (h.round.extra c hm)).1
    omega
  have hexit : c ≠ exit := by
    rintro rfl
    have := h.exit_new.1
    omega
  obtain ⟨e1, e2, e3⟩ := h.closed.frame c hlt
  exact ⟨e1.trans hsame.code, e2.trans hsame.writes, e3.trans hsame.dead,
    (h.closed.others c hlt hnot).trans hsame.jumps,
    fun hne => (h.closed.closed c hlt hne hexit).trans hsame.closed⟩

theorem frame (h : LoopMade w T test f b first last exit? exit p l p₁ l₁ p₂ l₂ l₂' p₃ l₃)
    {c : BlockId} (hc : c.index < p.count) (hb : c ≠ b) : SameBlock p p₃ c := by
  obtain ⟨e1, e2, e3, e4, e5⟩ := h.old (Nat.le_of_lt hc)
  have hhead : c ≠ f.head := by
    rintro rfl
    exact absurd hc (by rw [h.opened.head_name]; exact Nat.lt_irrefl _)
  exact (h.opened.frame c hc hb).trans ⟨e1, e2, e4, e3, e5 hhead⟩

theorem edge (h : LoopMade w T test f b first last exit? exit p l p₁ l₁ p₂ l₂ l₂' p₃ l₃)
    {q c : BlockId} (he : p.Edge q c) : p₃.Edge q c := by
  obtain ⟨br, hbr, ht⟩ := h.opened.edge h.start.built he
  refine ⟨br, ?_, ht⟩
  rw [(h.old (Nat.le_of_lt (h.start.built.edge_known he).1)).2.2.2.1]
  exact hbr

/-- What is behind the loop is live only if the loop is. -/
theorem live (h : LoopMade w T test f b first last exit? exit p l p₁ l₁ p₂ l₂ l₂' p₃ l₃)
    (hlive : p₃.dead exit = false) : p.dead b = false ∧ p₃.Reached exit := by
  obtain ⟨hd, hr⟩ := h.closed.live hlive
  obtain ⟨h1, h2, -⟩ := h.count
  have hne : f.head ≠ first := fun e => by
    have := h.opened.first_name
    rw [← e, h.opened.head_name] at this
    omega
  have hhead : f.head.index < p₁.count := by
    rw [h.opened.head_name]
    omega
  rw [(same_jump f.head h.round hhead hne).dead, h.opened.head_dead] at hd
  exact ⟨hd, hr⟩

/-- **Lowering goes on behind the loop.** -/
theorem good (h : LoopMade w T test f b first last exit? exit p l p₁ l₁ p₂ l₂ l₂' p₃ l₃) :
    Good exit p₃ l₃ := by
  obtain ⟨h1, h2, h3⟩ := h.count
  have hopen := fun {g} (hg : g ∈ l.loops) => (h.start.loops g hg).1.frame h.start.closed
    (h.start.loops g hg).2 (by omega) (fun c hc hb => h.frame hc hb) fun _ _ he => h.edge he
  refine ⟨h.closed.leads.built, h.closed.known, h.closed.exit_closed, h.closed.exit_blank.jumps,
    fun hlive => ?_, fun g hg => ?_⟩
  · obtain ⟨hd, hr⟩ := h.live hlive
    refine ⟨hr, fun g hg => ?_⟩
    rw [h.closed.loops, h.loops] at hg
    exact (hopen hg).2.trans ((h.start.live hd).2 g hg)
  · rw [h.closed.loops, h.loops] at hg
    refine ⟨(hopen hg).1, fun hm => ?_⟩
    have := ((h.start.loops g hg).1.breaks exit hm).1
    have := h.exit_new.1
    omega

/-- The blocks of the loop are sealed. -/
theorem fresh (h : LoopMade w T test f b first last exit? exit p l p₁ l₁ p₂ l₂ l₂' p₃ l₃)
    {c : BlockId} (hc : p.count ≤ c.index) (hc' : c.index < p₃.count) : p₃.closed c = true := by
  obtain ⟨h1, h2, h3⟩ := h.count
  by_cases hhead : c = f.head
  · rw [hhead]
    exact h.closed.head_closed
  by_cases hexit : c = exit
  · rw [hexit]
    exact h.closed.exit_closed
  by_cases hlt : c.index < p₂.count
  · have hlt' : c.index < (p₂.jump last none f.head).count := by
      rw [Plan.count_jump]
      exact hlt
    rw [h.closed.closed c hlt' hhead hexit, Plan.closed_jump]
    by_cases hnew : p₁.count ≤ c.index
    · exact h.round.fresh c hnew hlt
    by_cases hfirst : c = first
    · rw [hfirst, h.round.closed]
      exact h.opened.first_closed
    -- neither head nor body, so the block behind the loop
    have hne : c.index ≠ p.count ∧ c.index ≠ p.count + 1 :=
      ⟨fun e => hhead (BlockId.eq_of_index (e.trans h.opened.head_name.symm)),
        fun e => hfirst (BlockId.eq_of_index (e.trans h.opened.first_name.symm))⟩
    have hcount := h.opened.count
    have hname := h.closed.name
    cases hx : exit? with
    | none =>
      rw [hx] at hcount
      change p₁.count = p.count + 2 + 0 at hcount
      omega
    | some e =>
      rw [hx] at hname hcount
      change p₁.count = p.count + 2 + 1 at hcount
      refine absurd (BlockId.eq_of_index ?_) hexit
      rw [hname]
      show c.index = e.index
      rw [(h.opened.exit e hx).1]
      omega
  · exact absurd (h.closed.bound c (by rw [Plan.count_jump]; omega) hc') hexit

/-- **A loop leaves what it should of the plan before.** -/
theorem spans (h : LoopMade w T test f b first last exit? exit p l p₁ l₁ p₂ l₂ l₂' p₃ l₃) :
    Spans b p l [] exit p₃ l₃ := by
  obtain ⟨h1, h2, h3⟩ := h.count
  obtain ⟨e1, e2, e3, e4, e5⟩ := h.old (Nat.le_of_lt h.start.here)
  have hhead : b ≠ f.head := fun e => absurd h.start.here (by
    rw [e, h.opened.head_name]
    exact Nat.lt_irrefl _)
  have hround : Leads p₁ l₁ p₂ l₂ :=
    ⟨h.round.leads.built, h.round.leads.later, h.round.leads.vars, h.round.leads.limit⟩
  refine ⟨((h.opened.leads.trans hround).trans h.jumps).trans h.closed.leads, ?_, fun _ => rfl,
    by omega, fun c hc hb => h.frame hc hb, e3.trans h.opened.dead,
    (e5 hhead).trans h.opened.closed, ?_, fun c hc hc' => h.fresh hc hc', .inr ?_,
    fun hlive => (h.live hlive).1, fun c hc => by cases hc⟩
  · rw [h.closed.loops, h.loops, withBreaks_nil]
  · rw [e1, h.opened.code]
  · have := h.exit_new.1
    omega

/-- A block that leaves the loop has no other jump. -/
theorem break_free (h : LoopMade w T test f b first last exit? exit p l p₁ l₁ p₂ l₂ l₂' p₃ l₃)
    {c : BlockId} (hc : c ∈ f.breaks) : p₂.jumps c = [] := by
  have hf : (⟨f.label, f.head, [] ++ f.breaks, f.step⟩ : LoopFrame) ∈ l₂.loops := by
    rw [h.round.loops]
    exact List.mem_cons_self
  exact ((h.ends.loops _ hf).1.breaks c hc).2.2.2.1

/-! ## 3. Plays of the loop -/

section Plays

variable {P : Play w vars} {π : List BlockId} {μ : Memory}

/-- The finished plan agrees with the plan of the body. -/
theorem agrees (h : LoopMade w T test f b first last exit? exit p l p₁ l₁ p₂ l₂ l₂' p₃ l₃)
    (ha : Agrees P.plan p₃ p.count b exit []) :
    Agrees P.plan p₂ p₁.count first last f.breaks := by
  obtain ⟨h1, h2, h3⟩ := h.count
  have hregion : ∀ {c : BlockId}, c = first ∨ p₁.count ≤ c.index → p.count ≤ c.index :=
    fun hr => Nat.le_of_lt (h.opened.region hr).1
  have hlt : ∀ {c : BlockId}, c.index < p₂.count →
      c.index < (p₂.jump last none f.head).count := fun hc => by rwa [Plan.count_jump]
  have hcode : ∀ c : BlockId, c = first ∨ p₁.count ≤ c.index → c.index < p₂.count →
      P.plan.code c = p₂.code c := fun c hr hc => by
    rw [ha.code c (.inr (hregion hr)) (by omega) (h.exit_new.2 c hr hc),
      (h.closed.frame c (hlt hc)).1, Plan.code_jump]
  refine ⟨fun c hr hc _ => hcode c hr hc, fun c hr hc _ => ?_, fun c hr hc => ?_,
    fun c hr hc hne hnot => ?_, ?_⟩
  · rw [ha.writes c (.inr (hregion hr)) (by omega) (h.exit_new.2 c hr hc),
      (h.closed.frame c (hlt hc)).2.1, Plan.writes_jump]
  · rw [ha.dead c (.inr (hregion hr)) (by omega), (h.closed.frame c (hlt hc)).2.2, Plan.dead_jump]
  · rw [ha.jumps c (.inr (hregion hr)) (by omega) (h.exit_new.2 c hr hc) (fun hm => by cases hm),
      h.closed.others c (hlt hc) hnot, (SameBlock.jump hne none f.head).jumps]
  · rw [hcode last h.round.next h.ends.here]

/-- The finished plan agrees with the plan after the loop was opened on the block before the loop
    and on the head. -/
theorem settled (h : LoopMade w T test f b first last exit? exit p l p₁ l₁ p₂ l₂ l₂' p₃ l₃)
    (ha : Agrees P.plan p₃ p.count b exit []) {c : BlockId} (hc : c = b ∨ c = f.head) :
    P.plan.code c = p₁.code c ∧ P.plan.writes c = p₁.writes c ∧ P.plan.jumps c = p₁.jumps c := by
  obtain ⟨h1, h2, h3⟩ := h.count
  have hle : c.index ≤ p.count := by
    rcases hc with rfl | rfl
    · exact Nat.le_of_lt h.start.here
    · exact Nat.le_of_eq h.opened.head_name
  have hr : c = b ∨ p.count ≤ c.index := hc.imp id fun e => by
    rw [e, h.opened.head_name]
  have hexit : c ≠ exit := by
    rintro rfl
    have := h.exit_new.1
    omega
  obtain ⟨e1, e2, -, e4, -⟩ := h.old hle
  have hlt : c.index < p₃.count := by omega
  exact ⟨(ha.code c hr hlt hexit).trans e1, (ha.writes c hr hlt hexit).trans e2,
    (ha.jumps c hr hlt hexit fun hm => by cases hm).trans e4⟩

/-- From the block before the loop control comes to the head. -/
theorem enters (h : LoopMade w T test f b first last exit? exit p l p₁ l₁ p₂ l₂ l₂' p₃ l₃)
    (hP : P.Completes p₃ l₃) (ha : Agrees P.plan p₃ p.count b exit []) (hat : P.At p b π μ) :
    p.dead b = false ∧ P.Arrives π (P.Enters f.head) μ := by
  obtain ⟨h1, h2, h3⟩ := h.count
  have hlive : p.dead b = false := by
    rw [← h.opened.dead, ← (h.old (Nat.le_of_lt h.start.here)).2.2.1]
    exact hat.live hP ha (by have := h.start.here; omega)
  obtain ⟨e1, e2, e3⟩ := h.settled ha (.inl rfl)
  refine ⟨hlive, hat.arrives (e1.trans h.opened.code) (e2.trans h.opened.writes) ?_⟩
  rw [e3, h.opened.jumps, Plan.jumps_jump_self hlive, h.start.free]
  exact List.prefix_rfl

/-- The head changes nothing. -/
theorem head_end (h : LoopMade w T test f b first last exit? exit p l p₁ l₁ p₂ l₂ l₂' p₃ l₃)
    (hP : P.Completes p₁ l₁) (ha : Agrees P.plan p₃ p.count b exit [])
    (hat : P.Enters f.head π μ) : P.AtEnd f.head π μ := by
  obtain ⟨e1, e2, -⟩ := h.settled ha (.inr rfl)
  obtain ⟨-, hcode, -, hwrites⟩ := h.start.built.bare (c := f.head)
    (Nat.le_of_eq h.opened.head_name.symm)
  refine (hat.at hcode hwrites).atEnd ?_ (by rw [hcode, e1]; rfl)
    fun v hv => hP.silent (h.opened.head_silent v hv)
  rw [e2]
  funext x
  rw [h.opened.head_writes, hwrites]

/-- Where control goes from the head. -/
theorem next (h : LoopMade w T test f b first last exit? exit p l p₁ l₁ p₂ l₂ l₂' p₃ l₃) (hT : T)
    (hP : P.Completes p₁ l₁) (ha : Agrees P.plan p₃ p.count b exit []) (hlive : p.dead b = false)
    (hat : P.AtEnd f.head π μ) : P.next π = some (if test μ.store then first else exit) := by
  obtain ⟨-, e2, e3⟩ := h.settled ha (.inr rfl)
  have hjumps := h.opened.head_jumps hlive
  have hname := h.closed.name
  cases hx : exit? with
  | none =>
    rw [hx] at hjumps
    rw [if_pos (hjumps.2 hT _)]
    refine hat.next [] none ?_ (fun br hbr => by cases hbr) rfl
    rw [e3, hjumps.1]
    exact List.prefix_rfl
  | some e =>
    rw [hx] at hjumps hname
    obtain ⟨c, hc, hg⟩ := hjumps
    change exit = e at hname
    subst hname
    have htakes := hg hT vars P hP e2 hat first
    cases hb : test μ.store with
    | true =>
      refine hat.next [] (some c) ?_ (fun br hbr => by cases hbr) (htakes.trans hb)
      rw [e3, hc]
      exact List.prefix_append [_] _
    | false =>
      refine hat.next [⟨some c, first⟩] none ?_ (fun br hbr => ?_) rfl
      · rw [e3, hc]
        exact List.prefix_rfl
      · rw [List.mem_singleton.1 hbr, htakes, hb]

/-- What leaves the body comes to the block behind the loop. -/
theorem leaves (h : LoopMade w T test f b first last exit? exit p l p₁ l₁ p₂ l₂ l₂' p₃ l₃)
    (ha : Agrees P.plan p₃ p.count b exit []) {c : BlockId} (hc : c ∈ f.breaks)
    (hat : P.At p₂ c π μ) : P.Arrives π (P.Enters exit) μ := by
  obtain ⟨h1, h2, h3⟩ := h.count
  have hr := h.round.extra c hc
  obtain ⟨hlt, hne⟩ := h.round.extra_known h.ends hc
  have hr' : p.count ≤ c.index := Nat.le_of_lt (h.opened.region hr).1
  have hagree := h.agrees ha
  have hjoined := h.closed.joined c hc
  rw [(SameBlock.jump hne none f.head).jumps, h.break_free hc] at hjoined
  refine hat.arrives (hagree.code c hr hlt hne) (hagree.writes c hr hlt hne) ?_
  rw [ha.jumps c (.inr hr') (by omega) (h.exit_new.2 c hr hlt) (fun hm => by cases hm)]
  exact hjoined

/-- From the end of the body control comes back to the head. -/
theorem returns (h : LoopMade w T test f b first last exit? exit p l p₁ l₁ p₂ l₂ l₂' p₃ l₃)
    (hP : P.Completes p₂ l₂) (ha : Agrees P.plan p₃ p.count b exit []) (hat : P.At p₂ last π μ) :
    P.Arrives π (P.Enters f.head) μ := by
  obtain ⟨h1, h2, h3⟩ := h.count
  have hagree := h.agrees ha
  have hr := h.round.next
  have hr' : p.count ≤ last.index := Nat.le_of_lt (h.opened.region hr).1
  have hlast := h.ends.here
  have hlt : last.index < (p₂.jump last none f.head).count := by rwa [Plan.count_jump]
  have hexit := h.exit_new.2 last hr hlast
  have hlive : p₂.dead last = false := by
    rw [← hagree.dead last hr hlast]
    cases hat with
    | mk path _ _ => exact Play.live_of_path hP.live path
  refine hat.arrives ?_ ?_ ?_
  · rw [ha.code last (.inr hr') (by omega) hexit, (h.closed.frame last hlt).1, Plan.code_jump]
  · rw [ha.writes last (.inr hr') (by omega) hexit, (h.closed.frame last hlt).2.1, Plan.writes_jump]
  · rw [ha.jumps last (.inr hr') (by omega) hexit (fun hm => by cases hm),
      h.closed.others last hlt fun hm => (h.round.extra_known h.ends hm).2 rfl,
      Plan.jumps_jump_self hlive, h.ends.free]
    exact List.prefix_rfl

end Plays

section Rounds

variable {mid : BlockId} {pm : Plan} {lm : Lowering} {e₁ e₂ : List BlockId} {outer body step : Act}

/-- **Control goes round in the loop**, through the body to `mid` and through the step back to the
    head. -/
theorem simulates (h : LoopMade w T test f b first last exit? exit p l p₁ l₁ p₂ l₂ l₂' p₃ l₃)
    (hT : T) (hs₁ : Spans first p₁ (entered l₁ f.label f.head f.step) e₁ mid pm lm)
    (hg₁ : Good mid pm lm) (hs₂ : Spans mid pm lm e₂ last p₂ l₂) (hbreaks : f.breaks = e₁ ++ e₂)
    (hbody : Simulates w step body first p₁ (entered l₁ f.label f.head f.step) e₁ mid pm lm)
    (hstep : Simulates w .skip step mid pm lm e₂ last p₂ l₂) :
    Simulates w outer (.rounds test body step) b p l [] exit p₃ l₃ := by
  intro vars P hP ha n π μ hat
  have hP₂ : P.Completes p₂ l₂ := hP.back (h.jumps.trans h.closed.leads)
  have hPm := hP₂.back hs₂.leads
  have hP₁ := hPm.back hs₁.leads
  have hP₁' : P.Completes p₁ l₁ := ⟨hP₁.models, hP₁.roles, hP₁.vars, hP₁.live⟩
  have hagree := h.agrees ha
  rw [hbreaks] at hagree
  have hhead : innermostHead lm.loops = some f.head := by
    rw [hs₁.loops, innermostHead_withBreaks]
    rfl
  -- the positions behind the loop
  have hexit : ∀ {π μ}, P.Arrives π (P.Enters exit) μ → P.Arrives π (P.At p₃ exit) μ :=
    fun harr => harr.andThen fun hat' =>
      .here (hat'.at h.closed.exit_blank.code h.closed.exit_blank.writes)
  have hleave : ∀ {c : BlockId} {π μ}, c ∈ e₁ ++ e₂ → P.At p₂ c π μ →
      P.Arrives π (P.At p₃ exit) μ := fun hc hat' =>
    hexit (h.leaves ha (by rw [hbreaks]; exact hc) hat')
  obtain ⟨hlive, π₁, hgo, hat₁⟩ := h.enters hP ha hat
  refine Play.Follows.goes hgo (Nat.add_le_add_right hgo.length n) ?_
  refine Play.follows_rounds ?_ ?_ ?_ (fun {π μ} k (hat' : P.At pm mid π μ) => ?_) n hat₁
  · intro π μ hat'
    cases hat' with
    | mk path store trace => exact ⟨_, _, rfl, trace⟩
  · intro π μ hat' htest
    have hend := h.head_end hP₁' ha hat'
    have hnext := h.next hT hP₁' ha hlive hend
    rw [htest] at hnext
    exact hexit (hend.arrives hnext)
  · intro π μ k hat' htest
    have hend := h.head_end hP₁' ha hat'
    have hnext := h.next hT hP₁' ha hlive hend
    rw [htest] at hnext
    have hfirst : P.At p₁ first (first :: π) μ :=
      (hend.enters hnext).at h.opened.first_blank.code h.opened.first_blank.writes
    refine ⟨first :: π, .step .refl hnext, Nat.lt_succ_self _, ?_⟩
    refine (hbody P hPm (hagree.first hs₁ hg₁ hs₂) k hfirst).mono rfl .here ?_ ?_
    · rintro π' μ' ⟨c, hc, hat''⟩
      obtain ⟨h1, h2⟩ := hs₁.extra_known hg₁ hc
      have hc' := hs₂.frame c h1 h2
      exact hleave (List.mem_append_left _ hc) (hat''.same hc'.code hc'.writes)
    · rintro π' μ' ⟨c, hc, hat''⟩
      cases hc
      exact .here hat''
  · refine (hstep P hP₂ (hagree.second hs₁ hg₁) k hat').followsStep rfl ?_ ?_ ?_
    · exact fun hat'' => h.returns hP₂ ha hat''
    · rintro π' μ' ⟨c, hc, hat''⟩
      exact hleave (List.mem_append_right _ hc) hat''
    · rintro π' μ' ⟨c, hc, hat''⟩
      rw [hhead] at hc
      cases hc
      exact .here hat''

end Rounds

end LoopMade

/-! ## 4. Loops -/

theorem rounds_of_false {test : Store → Bool} (h : ∀ σ, test σ = false) (body step : Act) :
    Act.rounds test body step = .skip := by
  funext n μ
  cases n <;> exact if_neg (by rw [h]; exact Bool.false_ne_true)

/-- **A loop.** -/
theorem lowers_loop {construct : String} {cond : Expr} {steps : List Stmt}
    {body advance : BlockId → Lower BlockId} {outer act step : Act}
    (ht : T → (cond.typeIn vars).isSome = true) (hbody : Lowers w vars T step act body)
    (hstep : Lowers w vars T .skip step advance) :
    Lowers w vars T outer (.rounds (fun σ => (w.eval σ cond).isTrue) act step)
      (loop construct cond steps body advance) := by
  intro b p l hg hv
  unfold loop
  rw [Ends.bind_iff]
  refine ends_knownCondition ?_
  by_cases hno : (cond.evalWithin l.bench.literalLimit).map Literal.isTrue = some false
  · rw [if_pos hno]
    have hpure : Lowers w vars T outer .skip (fun b => pure b) := Lowers.pure
    obtain ⟨p', extra, hg', hs', hsim⟩ := hpure hg hv
    refine ⟨p', extra, hg', hs', fun hT => ?_⟩
    rw [rounds_of_false (isTrue_of_known (ht hT) hno)]
    exact hsim hT
  rw [if_neg hno, Ends.bind_iff]
  refine ends_freshLabel fun label k => ?_
  have hg' : Good b p { l with nextLabel := k } :=
    ⟨hg.built, hg.here, hg.closed, hg.free, hg.live, hg.loops⟩
  refine ends_openLoop (w := w) (T := T) hg' hv rfl ht fun head first exit? p₁ l₁ hopen => ?_
  rw [Ends.bind_iff]
  show Ends _ (entered l₁ label head steps) Refused _
  rw [Ends.bind_iff]
  have hgood : Good first p₁ (entered l₁ label head steps) := hopen.good hg'
  refine (hbody hgood (hopen.leads.vars.trans hv)).mono
    fun mid lm ⟨pm, e₁, hgm, hsm, hsimm⟩ => ?_
  rw [Ends.bind_iff]
  refine (hstep hgm (hsm.leads.vars.trans (hopen.leads.vars.trans hv))).mono
    fun last l₂ ⟨p₂, e₂, hg₂, hs₂, hsim₂⟩ => ?_
  have hs := hsm.trans hgood.here hs₂
  have hloops : l₂.loops = ⟨label, head, e₁ ++ e₂, steps⟩ :: l.loops := by
    rw [hs.loops]
    show _ :: l₁.loops = _
    rw [hopen.loops]
    rfl
  have hf : (⟨label, head, e₁ ++ e₂, steps⟩ : LoopFrame) ∈ l₂.loops := by
    rw [hloops]
    exact List.mem_cons_self
  obtain ⟨ho, -⟩ := hg₂.loops _ hf
  rw [Ends.bind_iff]
  refine ends_popLoop (fun e => by rw [hloops] at e; cases e) fun f rest hl => ?_
  obtain ⟨rfl, rfl⟩ := List.cons.inj (hloops.symm.trans hl)
  rw [Ends.bind_iff]
  refine ends_addEdge (l := { l₂ with loops := l.loops }) hg₂.built hg₂.here ho.known (fun hd => ?_)
    fun l₃ hl₃ hloops₃ => ?_
  · obtain ⟨hreach, hheads⟩ := hg₂.live hd
    exact ⟨hreach, hheads _ hf, ho.inner, ho.waits, fun o ho => by cases ho⟩
  have hl₃' : Leads p₂ l₂ (p₂.jump last none head) l₃ :=
    ⟨hl₃.built, hl₃.later, hl₃.vars, hl₃.limit⟩
  refine (ends_loopExit (hopen.done hg' hs hg₂ hl₃')).mono fun exit l₄ ⟨p₃, hclosed⟩ => ?_
  have hmade : LoopMade w T (fun σ => (w.eval σ cond).isTrue) ⟨label, head, e₁ ++ e₂, steps⟩ b first
      last exit? exit p { l with nextLabel := k } p₁ l₁ p₂ l₂ l₃ p₃ l₄ :=
    ⟨hg', hopen, hs, hg₂, hl₃', hloops₃, hclosed⟩
  have hspans := hmade.spans
  refine ⟨p₃, [], hmade.good, ⟨?_, hspans.loops, hspans.outside, hspans.count, hspans.frame,
    hspans.dead, hspans.closed, hspans.code, hspans.fresh, hspans.next, hspans.live,
    hspans.extra⟩, fun hT => ?_⟩
  · exact ⟨hspans.leads.built, hspans.leads.later, hspans.leads.vars, hspans.leads.limit⟩
  · exact hmade.simulates hT hsm hgm hs₂ rfl (hsimm hT) (hsim₂ hT)

end Lower

end BitFlow
