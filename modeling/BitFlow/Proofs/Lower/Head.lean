import BitFlow.Proofs.Lower.Branch

/-!
# Opening a loop

A loop begins with a block for its condition, one for its body and, unless the condition is known to
hold, one behind it. The block of the condition stays open until the body has been lowered.

Main statement: `Lower.ends_openLoop`.
-/

namespace BitFlow

namespace Lower

variable {w : World} {vars : List Variable} {T : Prop} {α : Type} {b head first : BlockId} {p : Plan}
  {l : Lowering}

/-! ## 1. The test -/

/-- Nothing is planned of a block yet. -/
structure Blank (p : Plan) (c : BlockId) : Prop where
  code : p.code c = []
  jumps : p.jumps c = []
  writes : ∀ x, p.writes c x = none

theorem blank_of_count (h : Built p l.tracked) {c : BlockId} (hc : p.count ≤ c.index) :
    Blank p c := by
  obtain ⟨-, h1, h2, h3⟩ := h.bare hc
  exact ⟨h1, h2, h3⟩

theorem Blank.same {p' : Plan} {c : BlockId} (h : Blank p c) (hs : SameBlock p p' c) :
    Blank p' c :=
  ⟨hs.code.trans h.code, hs.jumps.trans h.jumps, fun x => by rw [hs.writes]; exact h.writes x⟩

theorem Blank.block {c : BlockId} (h : Blank p c) (dead : Bool) : Blank (p.block dead) c :=
  ⟨h.code, h.jumps, h.writes⟩

/-- The blocks for condition and body of a loop are there, both blank. -/
structure HeadMade (head first : BlockId) (p : Plan) (l : Lowering) : Prop where
  built : Built p l.tracked
  head_known : head.index < p.count
  first_known : first.index < p.count
  waits : p.closed first = false
  kind : p.dead first = p.dead head
  inner : first ≠ Plan.entry
  blank : Blank p head
  reached : p.dead head = false → p.Reached head

/-- **The jumps of a loop's head**: on to the body if `test` holds, and else behind the loop; a loop
    whose condition always holds has nothing behind it yet. -/
def HeadJumps (w : World) (T : Prop) (test : Store → Bool) (head first : BlockId)
    (exit? : Option BlockId) (p : Plan) (l : Lowering) : Prop :=
  match exit? with
  | none => p.jumps head = [⟨none, first⟩] ∧ (T → ∀ σ, test σ = true)
  | some exit => ∃ c, p.jumps head = [⟨some c, first⟩, ⟨none, exit⟩] ∧
      (T → Gauges w head p l (some c) test)

/-- **The test of a loop was made in its head**, and a block behind the loop if one is needed. -/
structure HeadTested (w : World) (T : Prop) (test : Store → Bool) (head first : BlockId)
    (exit? : Option BlockId) (p : Plan) (l : Lowering) (p' : Plan) (l' : Lowering) : Prop where
  leads : Leads p l p' l'
  loops : l'.loops = l.loops
  exit : ∀ e ∈ exit?, e.index = p.count ∧ Blank p' e ∧ p'.closed e = false ∧ p'.dead e = p.dead head
  count : p'.count = p.count + exit?.toList.length
  frame : ∀ c : BlockId, c.index < p.count → c ≠ head → SameBlock p p' c
  dead : p'.dead head = p.dead head
  closed : p'.closed head = p.closed head
  writes : p'.writes head = p.writes head
  silent : ∀ v ∈ p'.code head, p'.roles.Silent v
  jumps : p.dead head = false → HeadJumps w T test head first exit? p' l'

theorem Gauges.later {p' : Plan} {l' : Lowering} {cond : Option Operand} {test : Store → Bool}
    (h : Gauges w b p l cond test) (hl : Leads p l p' l') (hw : p'.writes b = p.writes b) :
    Gauges w b p' l' cond test :=
  fun vars P hP hF => h vars P (hP.back hl) (hF.trans hw)

theorem HeadJumps.later {test : Store → Bool} {exit? : Option BlockId} {p' : Plan} {l' : Lowering}
    (h : HeadJumps w T test head first exit? p l) (hl : Leads p l p' l')
    (hs : SameBlock p p' head) : HeadJumps w T test head first exit? p' l' := by
  cases exit? with
  | none => exact ⟨hs.jumps.trans h.1, h.2⟩
  | some e =>
    obtain ⟨c, hc, hg⟩ := h
    exact ⟨c, hs.jumps.trans hc, fun hT => (hg hT).later hl hs.writes⟩

section Test

variable {label : String} {cond : Expr} {known : Option Bool}

/-- A loop whose condition is known to hold. -/
theorem ends_loopTest_known (h : HeadMade head first p l) {test : Store → Bool}
    (ht : T → ∀ σ, test σ = true) :
    Ends (loopTest label cond (some true) head first) l Refused fun exit? l' =>
      ∃ p', HeadTested w T test head first exit? p l p' l' := by
  unfold loopTest
  rw [if_pos rfl, Ends.bind_iff]
  refine ends_addEdge h.built h.head_known h.first_known (fun hd => ⟨h.reached hd, h.kind.trans hd,
    h.inner, h.waits, fun o ho => by cases ho⟩) fun l' hl hloops => ?_
  refine ⟨_, hl, hloops, (fun e he => by cases he), Plan.count_jump .., fun c _ hc => .jump hc _ _,
    by rw [Plan.dead_jump], by rw [Plan.closed_jump], by rw [Plan.writes_jump], fun v hv => ?_,
    fun hd => ⟨?_, ht⟩⟩
  · rw [Plan.code_jump, h.blank.code] at hv
    cases hv
  · rw [Plan.jumps_jump_self hd, h.blank.jumps]
    rfl

/-- A loop whose condition is to be tested. -/
theorem ends_loopTest_open (h : HeadMade head first p l) (hv : l.vars = vars)
    (hk : known ≠ some true) (ht : T → (cond.typeIn vars).isSome = true) :
    Ends (loopTest label cond known head first) l Refused fun exit? l' =>
      ∃ p', HeadTested w T (fun σ => (w.eval σ cond).isTrue) head first exit? p l p' l' := by
  unfold loopTest
  rw [if_neg hk, Ends.bind_iff]
  refine ends_newBlock h.built h.head_known fun l₁ hl₁ hloops₁ _ => ?_
  have hexit : ∀ {c : BlockId}, c.index < p.count → c ≠ ⟨p.count⟩ :=
    fun hc e => absurd hc (by rw [e]; exact Nat.lt_irrefl _)
  have hold : ∀ {c : BlockId}, c.index < p.count → SameBlock p (p.block (p.dead head)) c :=
    fun hc => .block hc _
  refine ends_lowerCondition tolerates_refused w hl₁.built (Nat.lt_succ_of_lt h.head_known)
    fun o l₂ p₂ hq hloops₂ ho hden => ?_
  obtain ⟨R, new, rfl, hsilent⟩ := hq.plan
  have hl₂ : Leads p l ((p.block (p.dead head)).extend head R new) l₂ :=
    hl₁.trans ⟨hq.built, hq.later, hq.vars, hq.limit⟩
  have hdead : ∀ {c : BlockId}, c.index < p.count →
      ((p.block (p.dead head)).extend head R new).dead c = p.dead c := fun hc => (hold hc).dead
  rw [Ends.bind_iff]
  refine ends_addEdge hl₂.built (Nat.lt_succ_of_lt h.head_known)
    (Nat.lt_succ_of_lt h.first_known) (fun hd => ?_)
    fun l₃ hl₃ hloops₃ => ?_
  · rw [hdead h.head_known] at hd
    refine ⟨h.reached hd, ?_, h.inner, h.waits, fun a ha => by cases ha; exact ho⟩
    rw [hdead h.first_known, h.kind, hd]
  rw [Ends.bind_iff]
  refine ends_addEdge hl₃.built (by rw [Plan.count_jump]; exact Nat.lt_succ_of_lt h.head_known)
    (by rw [Plan.count_jump]; exact Nat.lt_succ_self _) (fun hd => ?_) fun l₄ hl₄ hloops₄ => ?_
  · rw [Plan.dead_jump, hdead h.head_known] at hd
    refine ⟨(h.reached hd).mono fun _ _ he => Plan.edge_jump he, ?_,
      (hexit h.built.entry_known).symm, ?_,
      fun a ha => by cases ha⟩
    · rw [Plan.dead_jump]
      exact (p.dead_block_self _).trans hd
    · rw [Plan.closed_jump]
      exact (h.built.bare (Nat.le_refl _)).1
  have hnew := blank_of_count h.built (c := ⟨p.count⟩) (Nat.le_refl _)
  refine ⟨_, (hl₂.trans hl₃).trans hl₄, ?_, fun e he => ?_, ?_, fun c hc hch => ?_, ?_, ?_, ?_,
    fun v hv => ?_, fun hd => ⟨o, ?_, fun hT => ?_⟩⟩
  · exact hloops₄.trans (hloops₃.trans (hloops₂.trans hloops₁))
  · cases he
    refine ⟨rfl, ?_, ?_, ?_⟩
    · have hc := (hexit h.head_known).symm
      exact (hnew.block _).same (((SameBlock.extend hc R new).trans (.jump hc _ _)).trans
        (.jump hc _ _))
    · rw [Plan.closed_jump, Plan.closed_jump]
      exact (h.built.bare (Nat.le_refl _)).1
    · rw [Plan.dead_jump, Plan.dead_jump]
      exact p.dead_block_self _
  · rw [Plan.count_jump, Plan.count_jump]
    rfl
  · exact (((hold hc).trans (.extend hch R new)).trans (.jump hch _ _)).trans (.jump hch _ _)
  · rw [Plan.dead_jump, Plan.dead_jump, hdead h.head_known]
  · rw [Plan.closed_jump, Plan.closed_jump]
    rfl
  · rw [Plan.writes_jump, Plan.writes_jump]
    rfl
  · rw [Plan.code_jump, Plan.code_jump, Plan.code_extend_self] at hv
    rw [Plan.roles_jump, Plan.roles_jump]
    rcases List.mem_append.1 hv with hv | hv
    · rw [show (p.block (p.dead head)).code head = [] from h.blank.code] at hv
      cases hv
    · exact hsilent v hv
  · rw [Plan.jumps_jump_self (by rw [Plan.dead_jump, hdead h.head_known, hd]),
      Plan.jumps_jump_self (by rw [hdead h.head_known, hd]),
      show ((p.block (p.dead head)).extend head R new).jumps head = [] from h.blank.jumps]
    rfl
  · obtain ⟨ty, hty⟩ := Option.isSome_iff_exists.1 (ht hT)
    obtain ⟨g, hg, hgt⟩ := hden ty (by rw [hl₁.vars, hv]; exact hty) (h.reached hd)
    refine (gauges_of_denotes hg hgt).later (hl₃.trans hl₄) ?_
    rw [Plan.writes_jump, Plan.writes_jump]

/-- **The test of a loop**, unless its condition is known not to hold. -/
theorem ends_loopTest (h : HeadMade head first p l) (hv : l.vars = vars)
    (hk : known = (cond.evalWithin l.bench.literalLimit).map Literal.isTrue)
    (ht : T → (cond.typeIn vars).isSome = true) :
    Ends (loopTest label cond known head first) l Refused fun exit? l' =>
      ∃ p', HeadTested w T (fun σ => (w.eval σ cond).isTrue) head first exit? p l p' l' := by
  by_cases hyes : known = some true
  · rw [hyes]
    exact ends_loopTest_known h fun hT => isTrue_of_known (ht hT) (hk.symm.trans hyes)
  · exact ends_loopTest_open h hv hyes ht

end Test

/-! ## 2. Head and body -/

/-- **A loop was opened at `b`**: control goes from `b` to the head and from there, if `test` holds,
    to the first block of the body. -/
structure LoopOpened (w : World) (T : Prop) (test : Store → Bool) (b head first : BlockId)
    (exit? : Option BlockId) (p : Plan) (l : Lowering) (p' : Plan) (l' : Lowering) : Prop where
  leads : Leads p l p' l'
  loops : l'.loops = l.loops
  head_name : head.index = p.count
  first_name : first.index = p.count + 1
  exit : ∀ e ∈ exit?, e.index = p.count + 2 ∧ Blank p' e ∧ p'.closed e = false ∧
    p'.dead e = p.dead b
  count : p'.count = p.count + 2 + exit?.toList.length
  frame : ∀ c : BlockId, c.index < p.count → c ≠ b → SameBlock p p' c
  code : p'.code b = p.code b
  writes : p'.writes b = p.writes b
  dead : p'.dead b = p.dead b
  closed : p'.closed b = p.closed b
  jumps : p'.jumps b = (p.jump b none head).jumps b
  waits : p'.closed head = false
  head_dead : p'.dead head = p.dead b
  head_writes : ∀ x, p'.writes head x = none
  head_silent : ∀ v ∈ p'.code head, p'.roles.Silent v
  head_jumps : p.dead b = false → HeadJumps w T test head first exit? p' l'
  first_closed : p'.closed first = true
  first_dead : p'.dead first = p.dead b
  first_blank : Blank p' first

/-- The plan with the blocks for condition and body of a loop. -/
def withHead (p : Plan) (b : BlockId) : Plan :=
  ((p.block (p.dead b)).block (p.dead b)).jump b none ⟨p.count⟩

section Open

theorem count_withHead (p : Plan) (b : BlockId) : (withHead p b).count = p.count + 2 :=
  Plan.count_jump ..

theorem ne_new {c : BlockId} (hc : c.index < p.count) (n : Nat) : c ≠ ⟨p.count + n⟩ :=
  fun e => absurd hc (by rw [e]; exact Nat.not_lt_of_le (Nat.le_add_right _ _))

theorem dead_withHead (hb : b.index < p.count) :
    (withHead p b).dead b = p.dead b ∧ (withHead p b).dead ⟨p.count⟩ = p.dead b ∧
      (withHead p b).dead ⟨p.count + 1⟩ = p.dead b := by
  unfold withHead
  rw [Plan.dead_jump]
  refine ⟨?_, ?_, (p.block (p.dead b)).dead_block_self _⟩
  · rw [Plan.dead_block_of_lt (Nat.lt_succ_of_lt hb), Plan.dead_block_of_lt hb]
  · rw [Plan.dead_block_of_lt (Nat.lt_succ_self _)]
    exact p.dead_block_self _

theorem same_withHead {c : BlockId} (hc : c.index < p.count) (hcb : c ≠ b) :
    SameBlock p (withHead p b) c :=
  ((SameBlock.block hc _).trans (.block (Nat.lt_succ_of_lt hc) _)).trans (.jump hcb _ _)

theorem jumps_withHead (hb : b.index < p.count) :
    (withHead p b).jumps b = (p.jump b none ⟨p.count⟩).jumps b := by
  have hd : ((p.block (p.dead b)).block (p.dead b)).dead b = p.dead b := by
    rw [Plan.dead_block_of_lt (Nat.lt_succ_of_lt hb), Plan.dead_block_of_lt hb]
  unfold withHead Plan.jump
  rw [hd]
  cases p.dead b <;> rfl

theorem blank_withHead (h : Built p l.tracked) {c : BlockId} (hb : b.index < p.count)
    (hc : p.count ≤ c.index) : Blank (withHead p b) c ∧ (withHead p b).closed c = false := by
  have hne : c ≠ b := fun e => absurd hb (by rw [← e]; exact Nat.not_lt_of_le hc)
  refine ⟨(((blank_of_count h hc).block _).block _).same (.jump hne _ _), ?_⟩
  unfold withHead
  rw [Plan.closed_jump]
  exact (h.bare hc).1

theorem edge_withHead {q c : BlockId} (he : p.Edge q c) : (withHead p b).Edge q c :=
  Plan.edge_jump he

theorem headMade {l' : Lowering} (h : Good b p l) (hl : Leads p l (withHead p b) l') :
    HeadMade ⟨p.count⟩ ⟨p.count + 1⟩ (withHead p b) l' := by
  obtain ⟨hdb, hdh, hdf⟩ := dead_withHead (p := p) h.here
  refine ⟨hl.built, by rw [count_withHead]; simp, by rw [count_withHead]; simp,
    (blank_withHead h.built h.here (Nat.le_succ _)).2, by rw [hdf, hdh],
    (ne_new h.built.entry_known 1).symm, (blank_withHead h.built h.here (Nat.le_refl _)).1,
    fun hd => ?_⟩
  rw [hdh] at hd
  refine ((h.live hd).1.mono fun _ _ he => edge_withHead he).step ?_
  refine Plan.edge_jump_self ?_
  rw [Plan.dead_block_of_lt (Nat.lt_succ_of_lt h.here), Plan.dead_block_of_lt h.here]
  exact hd

/-- **A loop is opened.** -/
theorem ends_openLoop {label : String} {cond : Expr} {known : Option Bool} (h : Good b p l)
    (hv : l.vars = vars) (hk : known = (cond.evalWithin l.bench.literalLimit).map Literal.isTrue)
    (ht : T → (cond.typeIn vars).isSome = true)
    {rest : BlockId → BlockId → Option BlockId → Lower α} {Q : α → Lowering → Prop}
    (hQ : ∀ head first exit? p' l', LoopOpened w T (fun σ => (w.eval σ cond).isTrue) b head first
      exit? p l p' l' → Ends (rest head first exit?) l' Refused Q) :
    Ends (do
      let head ← newBlock (label ++ ".cond") b
      let first ← newBlock (label ++ ".body") head
      (liftM (Edit.addEdge b none head) : Lower Unit)
      let exit? ← loopTest label cond known head first
      (liftM (Track.sealBlock first) : Lower Unit)
      rest head first exit?) l Refused Q := by
  rw [Ends.bind_iff]
  refine ends_newBlock h.built h.here fun l₁ hl₁ hloops₁ _ => ?_
  rw [Ends.bind_iff]
  refine ends_newBlock hl₁.built (Nat.lt_succ_self _) fun l₂ hl₂ hloops₂ _ => ?_
  rw [p.dead_block_self] at hl₂
  rw [Ends.bind_iff]
  have hdb : ((p.block (p.dead b)).block (p.dead b)).dead b = p.dead b := by
    rw [Plan.dead_block_of_lt (Nat.lt_succ_of_lt h.here), Plan.dead_block_of_lt h.here]
  refine ends_addEdge hl₂.built (Nat.lt_succ_of_lt (Nat.lt_succ_of_lt h.here))
    (Nat.lt_succ_of_lt (Nat.lt_succ_self _)) (fun hd => ?_) fun l₃ hl₃ hloops₃ => ?_
  · rw [hdb] at hd
    refine ⟨(h.live hd).1, ?_, (ne_new h.built.entry_known 0).symm,
      (h.built.bare (Nat.le_refl _)).1, fun o ho => by cases ho⟩
    rw [Plan.dead_block_of_lt (Nat.lt_succ_self _), p.dead_block_self]
    exact hd
  have hl : Leads p l (withHead p b) l₃ := (hl₁.trans hl₂).trans hl₃
  have hmade := headMade h hl
  rw [Ends.bind_iff]
  refine (ends_loopTest (w := w) (T := T) hmade (hl.vars.trans hv) (by rw [hl.limit]; exact hk)
    ht).mono fun exit? l₄ ⟨p₄, h₄⟩ => ?_
  have hfirst : SameBlock (withHead p b) p₄ ⟨p.count + 1⟩ :=
    h₄.frame _ hmade.first_known fun e => by simp at e
  rw [Ends.bind_iff]
  refine ends_sealBlock h₄.leads.built ?_ ?_ fun l₅ roles hl₅ hloops₅ => ?_
  · rw [h₄.count]
    exact Nat.lt_of_lt_of_le hmade.first_known (Nat.le_add_right _ _)
  · exact hfirst.closed.trans hmade.waits
  refine hQ ⟨p.count⟩ ⟨p.count + 1⟩ exit? (p₄.close ⟨p.count + 1⟩ roles) l₅ ?_
  have hold : ∀ {c : BlockId}, c.index < p.count →
      SameBlock (withHead p b) (p₄.close ⟨p.count + 1⟩ roles) c := fun hc =>
    (h₄.frame _ (Nat.lt_trans hc hmade.head_known) (ne_new hc 0)).trans (.close (ne_new hc 1) _)
  have hhead : SameBlock p₄ (p₄.close ⟨p.count + 1⟩ roles) ⟨p.count⟩ :=
    .close (fun e => by simp at e) _
  obtain ⟨hd, hdh, hdf⟩ := dead_withHead (p := p) h.here
  have hb := hold h.here
  refine ⟨(hl.trans h₄.leads).trans hl₅, ?_, rfl, rfl, fun e he => ?_, ?_, fun c hc hcb => ?_, ?_, ?_,
    hb.dead.trans hd, ?_, ?_, ?_, ?_, fun x => ?_, fun v hv => ?_, fun hlive => ?_,
    Plan.closed_close_self .., ?_, ?_⟩
  · exact hloops₅.trans (h₄.loops.trans (hloops₃.trans (hloops₂.trans hloops₁)))
  · obtain ⟨h1, h2, h3, h4⟩ := h₄.exit e he
    rw [count_withHead] at h1
    have hne : e ≠ ⟨p.count + 1⟩ := by
      rintro rfl
      simp at h1
    have hs : SameBlock p₄ (p₄.close ⟨p.count + 1⟩ roles) e := .close hne _
    exact ⟨h1, h2.same hs, hs.closed.trans h3, h4.trans hdh⟩
  · show p₄.count = _
    rw [h₄.count, count_withHead]
  · exact (same_withHead hc hcb).trans (hold hc)
  · rw [hb.code]
    unfold withHead
    rw [Plan.code_jump]
    rfl
  · rw [hb.writes]
    unfold withHead
    rw [Plan.writes_jump]
    rfl
  · rw [hb.closed]
    unfold withHead
    rw [Plan.closed_jump]
    rfl
  · rw [hb.jumps, jumps_withHead h.here]
  · rw [hhead.closed, h₄.closed]
    exact (blank_withHead h.built h.here (Nat.le_refl _)).2
  · rw [hhead.dead, h₄.dead, hdh]
  · rw [hhead.writes, h₄.writes]
    exact hmade.blank.writes x
  · rw [hhead.code] at hv
    exact (h₄.silent v hv).mono hl₅.later.roles
  · rw [← hdh] at hlive
    exact (h₄.jumps hlive).later hl₅ hhead
  · show p₄.dead ⟨p.count + 1⟩ = _
    rw [hfirst.dead, hdf]
  · have hb := (blank_withHead (b := b) h.built h.here (c := ⟨p.count + 1⟩) (Nat.le_succ _)).1
    exact ⟨hfirst.code.trans hb.code, hfirst.jumps.trans hb.jumps, fun x => by
      show p₄.writes _ x = _
      rw [hfirst.writes]
      exact hb.writes x⟩

end Open

end Lower

end BitFlow
