import BitFlow.Proofs.Lower.Head

/-!
# Closing a loop

When the body of a loop has been lowered, the blocks that leave the loop jump to the block behind
it, and the head is sealed. A loop that is left by breaks alone gets the block behind it only then.

Main statement: `Lower.ends_loopExit`.
-/

namespace BitFlow

namespace Lower

variable {w : World} {vars : List Variable} {T : Prop} {b head exit : BlockId} {p : Plan}
  {l : Lowering} {bs : List BlockId}

/-! ## 1. Breaks -/

/-- **The blocks `bs` jump to `exit`**, and nothing else has changed. -/
structure BreaksJoined (exit : BlockId) (bs : List BlockId) (p : Plan) (l : Lowering) (p' : Plan)
    (l' : Lowering) : Prop where
  leads : Leads p l p' l'
  loops : l'.loops = l.loops
  count : p'.count = p.count
  code : p'.code = p.code
  writes : p'.writes = p.writes
  dead : p'.dead = p.dead
  closed : p'.closed = p.closed
  others : ∀ c, c ∉ bs → p'.jumps c = p.jumps c
  grows : ∀ c, p.jumps c <+: p'.jumps c
  joined : ∀ c ∈ bs, p.jumps c ++ [⟨none, exit⟩] <+: p'.jumps c

theorem ends_joinBreaks (exit : BlockId) (h : Built p l.tracked) (hexit : exit.index < p.count)
    (hopen : p.closed exit = false) (hinner : exit ≠ Plan.entry)
    (hbs : ∀ c ∈ bs, c.index < p.count ∧ p.dead c = false ∧ p.Reached c ∧ p.dead exit = false) :
    Ends (joinBreaks exit bs) l Refused fun _ l' => ∃ p', BreaksJoined exit bs p l p' l' := by
  unfold joinBreaks
  induction bs generalizing p l with
  | nil =>
    exact ⟨p, .refl h, rfl, rfl, rfl, rfl, rfl, rfl, fun _ _ => rfl, fun _ => List.prefix_rfl,
      fun c hc => by cases hc⟩
  | cons a bs ih =>
    obtain ⟨ha, hlive, hreach, hexitLive⟩ := hbs a List.mem_cons_self
    show Ends (_ >>= fun _ => bs.forM _) l Refused _
    rw [Ends.bind_iff]
    refine ends_addEdge h ha hexit (fun _ => ⟨hreach, hexitLive, hinner, hopen,
      fun o ho => by cases ho⟩) fun l₁ hl₁ hloops₁ => ?_
    refine (ih hl₁.built (by rw [Plan.count_jump]; exact hexit) (by rw [Plan.closed_jump]; exact hopen)
      fun c hc => ?_).mono fun _ l₂ ⟨p₂, h₂⟩ => ?_
    · obtain ⟨h1, h2, h3, h4⟩ := hbs c (List.mem_cons_of_mem _ hc)
      rw [Plan.count_jump, Plan.dead_jump]
      exact ⟨h1, h2, h3.mono fun _ _ he => Plan.edge_jump he, h4⟩
    refine ⟨p₂, hl₁.trans h₂.leads, h₂.loops.trans hloops₁, h₂.count.trans (Plan.count_jump ..),
      h₂.code.trans (Plan.code_jump ..), h₂.writes.trans (Plan.writes_jump ..),
      h₂.dead.trans (Plan.dead_jump ..), h₂.closed.trans (Plan.closed_jump ..), fun c hc => ?_,
      fun c => (Plan.jumps_jump ..).trans (h₂.grows c), fun c hc => ?_⟩
    · rw [List.mem_cons, not_or] at hc
      rw [h₂.others c hc.2, (SameBlock.jump hc.1 _ _).jumps]
    · by_cases e : c = a
      · rw [e, ← Plan.jumps_jump_self hlive]
        exact h₂.grows a
      · have := h₂.joined c ((List.mem_cons.1 hc).resolve_left e)
        rwa [(SameBlock.jump e none exit).jumps] at this

/-! ## 2. The block behind a loop -/

/-- **A loop was closed**: its head and the block behind it are sealed, and the blocks that leave it
    jump there. -/
structure LoopClosed (head : BlockId) (bs : List BlockId) (exit? : Option BlockId) (exit : BlockId)
    (p : Plan) (l : Lowering) (p' : Plan) (l' : Lowering) : Prop where
  name : exit = exit?.getD ⟨p.count⟩
  leads : Leads p l p' l'
  loops : l'.loops = l.loops
  count : p.count ≤ p'.count
  bound : ∀ c : BlockId, p.count ≤ c.index → c.index < p'.count → c = exit
  known : exit.index < p'.count
  frame : ∀ c : BlockId, c.index < p.count → p'.code c = p.code c ∧ p'.writes c = p.writes c ∧
    p'.dead c = p.dead c
  closed : ∀ c : BlockId, c.index < p.count → c ≠ head → c ≠ exit → p'.closed c = p.closed c
  others : ∀ c : BlockId, c.index < p.count → c ∉ bs → p'.jumps c = p.jumps c
  joined : ∀ c ∈ bs, p.jumps c ++ [⟨none, exit⟩] <+: p'.jumps c
  head_closed : p'.closed head = true
  exit_closed : p'.closed exit = true
  exit_blank : Blank p' exit
  live : p'.dead exit = false → p.dead head = false ∧ p'.Reached exit

/-- What is asked of the block behind a loop, if it is there already. -/
structure Behind (f : LoopFrame) (p : Plan) (exit : BlockId) : Prop where
  known : exit.index < p.count
  waits : p.closed exit = false
  inner : exit ≠ Plan.entry
  ne_head : exit ≠ f.head
  notBreak : exit ∉ f.breaks
  blank : Blank p exit
  kind : p.dead exit = p.dead f.head
  reached : p.dead f.head = false → p.Reached exit

/-- **The body of a loop has been lowered**, and its end jumps to the head. -/
structure BodyDone (f : LoopFrame) (exit? : Option BlockId) (p : Plan) (l : Lowering) : Prop where
  built : Built p l.tracked
  known : f.head.index < p.count
  waits : p.closed f.head = false
  breaks : ∀ c ∈ f.breaks, c.index < p.count ∧ p.dead c = false ∧ p.Reached c ∧
    p.dead f.head = false
  exit : ∀ e ∈ exit?, Behind f p e

section Close

variable {f : LoopFrame}

/-- A loop that has a block behind it from the beginning is closed. -/
theorem ends_loopExit_some (h : BodyDone f (some exit) p l) :
    Ends (do
      let exit ← loopExit f (some exit)
      (liftM (Track.sealBlock exit) : Lower Unit)
      pure exit) l Refused fun b' l' => ∃ p',
        LoopClosed f.head f.breaks (some exit) b' p l p' l' := by
  have he := h.exit exit rfl
  unfold loopExit
  rw [Ends.bind_iff, Ends.bind_iff]
  refine (ends_joinBreaks exit h.built he.known he.waits he.inner fun c hc => ?_).mono
    fun _ l₁ ⟨p₁, h₁⟩ => ?_
  · obtain ⟨h1, h2, h3, h4⟩ := h.breaks c hc
    exact ⟨h1, h2, h3, he.kind.trans h4⟩
  rw [Ends.bind_iff]
  refine ends_sealBlock h₁.leads.built (by rw [h₁.count]; exact h.known)
    (by rw [h₁.closed]; exact h.waits) fun l₂ R₂ hl₂ hloops₂ => ?_
  rw [Ends.pure_iff, Ends.bind_iff]
  refine ends_sealBlock hl₂.built (by
      show exit.index < p₁.count
      rw [h₁.count]
      exact he.known)
    (by rw [Plan.closed_close_of_ne he.ne_head, h₁.closed]; exact he.waits)
    fun l₃ R₃ hl₃ hloops₃ => ?_
  refine ⟨_, rfl, (h₁.leads.trans hl₂).trans hl₃, hloops₃.trans (hloops₂.trans h₁.loops),
    Nat.le_of_eq h₁.count.symm, fun c h1 h2 => absurd h2 (Nat.not_lt_of_le (by
      show p₁.count ≤ _
      rw [h₁.count]
      exact h1)), ?_, fun c _ => ⟨congrFun h₁.code c, congrFun h₁.writes c, congrFun h₁.dead c⟩,
    fun c _ hc1 hc2 => ?_, fun c _ hc => h₁.others c hc, h₁.joined, ?_, Plan.closed_close_self ..,
    ⟨?_, ?_, fun x => ?_⟩, fun hlive => ?_⟩
  · show exit.index < p₁.count
    rw [h₁.count]
    exact he.known
  · rw [Plan.closed_close_of_ne hc2, Plan.closed_close_of_ne hc1, h₁.closed]
  · rw [Plan.closed_close_of_ne he.ne_head.symm, Plan.closed_close_self]
  · exact (congrFun h₁.code exit).trans he.blank.code
  · exact (h₁.others exit he.notBreak).trans he.blank.jumps
  · exact (congrFun (congrFun h₁.writes exit) x).trans (he.blank.writes x)
  · have hd : p.dead f.head = false := by
      rw [← he.kind, ← hlive]
      exact (congrFun h₁.dead exit).symm
    refine ⟨hd, (he.reached hd).mono ?_⟩
    rintro q c ⟨br, hbr, ht⟩
    exact ⟨br, (h₁.grows q).subset hbr, ht⟩

/-- A loop that is never left: behind it nothing can be. -/
theorem ends_loopExit_never (h : BodyDone f none p l) (hempty : f.breaks = []) :
    Ends (do
      let exit ← loopExit f none
      (liftM (Track.sealBlock exit) : Lower Unit)
      pure exit) l Refused fun b' l' => ∃ p',
        LoopClosed f.head f.breaks none b' p l p' l' := by
  unfold loopExit
  rw [Ends.bind_iff, Ends.bind_iff]
  refine ends_sealBlock h.built h.known h.waits fun l₁ R₁ hl₁ hloops₁ => ?_
  rw [if_pos (by rw [hempty]; rfl)]
  refine ends_addBlock hl₁.built fun l₂ hl₂ hloops₂ _ => ?_
  have hne : ∀ {c : BlockId}, c.index < p.count → c ≠ ⟨p.count⟩ := fun hc => ne_new hc 0
  rw [Ends.bind_iff]
  refine ends_sealBlock hl₂.built (Nat.lt_succ_self _) ?_ fun l₃ R₃ hl₃ hloops₃ => ?_
  · show (p.close f.head R₁).closed ⟨p.count⟩ = false
    rw [Plan.closed_close_of_ne (hne h.known).symm]
    exact (h.built.bare (Nat.le_refl _)).1
  have hblank := blank_of_count h.built (c := ⟨p.count⟩) (Nat.le_refl _)
  refine ⟨_, rfl, (hl₁.trans hl₂).trans hl₃, hloops₃.trans (hloops₂.trans hloops₁), Nat.le_succ _,
    fun c h1 h2 => ?_, Nat.lt_succ_self _, fun c hc => ⟨rfl, rfl, ?_⟩, fun c hc hc1 _ => ?_,
    fun c _ _ => rfl, fun c hc => ?_, ?_, Plan.closed_close_self .., ⟨?_, ?_, fun x => ?_⟩,
    fun hlive => ?_⟩
  · refine BlockId.eq_of_index ?_
    change c.index < p.count + 1 at h2
    show c.index = p.count
    omega
  · exact Plan.dead_block_of_lt (p := p.close f.head R₁) hc true
  · rw [Plan.closed_close_of_ne (hne hc)]
    exact Plan.closed_close_of_ne hc1 R₁
  · rw [hempty] at hc
    cases hc
  · rw [Plan.closed_close_of_ne (hne h.known)]
    exact Plan.closed_close_self p f.head R₁
  · exact hblank.code
  · exact hblank.jumps
  · exact hblank.writes x
  · have : ((p.close f.head R₁).block true).dead ⟨p.count⟩ = true :=
      (p.close f.head R₁).dead_block_self true
    have hfalse : true = false := this.symm.trans hlive
    cases hfalse

/-- A loop that is left by breaks alone gets the block behind it now. -/
theorem ends_loopExit_late (h : BodyDone f none p l) (hsome : f.breaks ≠ []) :
    Ends (do
      let exit ← loopExit f none
      (liftM (Track.sealBlock exit) : Lower Unit)
      pure exit) l Refused fun b' l' => ∃ p',
        LoopClosed f.head f.breaks none b' p l p' l' := by
  unfold loopExit
  rw [Ends.bind_iff, Ends.bind_iff]
  refine ends_sealBlock h.built h.known h.waits fun l₁ R₁ hl₁ hloops₁ => ?_
  rw [if_neg (mt List.isEmpty_iff.1 hsome), Ends.bind_iff]
  refine ends_newBlock hl₁.built h.known fun l₂ hl₂ hloops₂ _ => ?_
  have hne : ∀ {c : BlockId}, c.index < p.count → c ≠ ⟨p.count⟩ := fun hc => ne_new hc 0
  have hblank := blank_of_count h.built (c := ⟨p.count⟩) (Nat.le_refl _)
  set p₂ := (p.close f.head R₁).block ((p.close f.head R₁).dead f.head) with hp₂
  have hdead : ∀ {c : BlockId}, c.index < p.count → p₂.dead c = p.dead c :=
    fun hc => Plan.dead_block_of_lt (p := p.close f.head R₁) hc _
  have hexit : p₂.dead ⟨p.count⟩ = p.dead f.head := (p.close f.head R₁).dead_block_self _
  have hwaits : p₂.closed ⟨p.count⟩ = false := by
    show (p.close f.head R₁).closed ⟨p.count⟩ = false
    rw [Plan.closed_close_of_ne (hne h.known).symm]
    exact (h.built.bare (Nat.le_refl _)).1
  rw [Ends.bind_iff]
  refine (ends_joinBreaks ⟨p.count⟩ hl₂.built (Nat.lt_succ_self _) hwaits
    (hne h.built.entry_known).symm fun c hc => ?_).mono fun _ l₃ ⟨p₃, h₃⟩ => ?_
  · obtain ⟨h1, h2, h3, h4⟩ := h.breaks c hc
    exact ⟨Nat.lt_succ_of_lt h1, (hdead h1).trans h2, h3, hexit.trans h4⟩
  rw [Ends.pure_iff, Ends.bind_iff]
  have hcount : p₃.count = p.count + 1 := h₃.count
  refine ends_sealBlock h₃.leads.built (by rw [hcount]; exact Nat.lt_succ_self _)
    (by rw [h₃.closed]; exact hwaits) fun l₄ R₄ hl₄ hloops₄ => ?_
  refine ⟨_, rfl, ((hl₁.trans hl₂).trans h₃.leads).trans hl₄,
    hloops₄.trans (h₃.loops.trans (hloops₂.trans hloops₁)), ?_, fun c h1 h2 => ?_, ?_,
    fun c hc => ⟨congrFun h₃.code c, congrFun h₃.writes c, ?_⟩, fun c hc hc1 _ => ?_,
    fun c _ hc => h₃.others c hc, h₃.joined, ?_, Plan.closed_close_self .., ⟨?_, ?_, fun x => ?_⟩,
    fun _ => ?_⟩
  · show p.count ≤ p₃.count
    rw [hcount]
    exact Nat.le_succ _
  · refine BlockId.eq_of_index ?_
    change c.index < p₃.count at h2
    rw [hcount] at h2
    show c.index = p.count
    omega
  · show p.count < p₃.count
    rw [hcount]
    exact Nat.lt_succ_self _
  · exact (congrFun h₃.dead c).trans (hdead hc)
  · refine (Plan.closed_close_of_ne (hne hc) R₄).trans ?_
    rw [h₃.closed]
    exact Plan.closed_close_of_ne hc1 R₁
  · refine (Plan.closed_close_of_ne (hne h.known) R₄).trans ?_
    rw [h₃.closed]
    exact Plan.closed_close_self p f.head R₁
  · exact (congrFun h₃.code _).trans hblank.code
  · refine (h₃.others _ fun hm => ?_).trans hblank.jumps
    exact absurd (h.breaks _ hm).1 (Nat.lt_irrefl _)
  · exact (congrFun (congrFun h₃.writes _) x).trans (hblank.writes x)
  · -- some block leaves the loop
    obtain ⟨c, hc⟩ := List.exists_mem_of_ne_nil _ hsome
    obtain ⟨-, -, hreach, hlive⟩ := h.breaks c hc
    have hedge : ∀ q a, p.Edge q a → p₃.Edge q a := by
      rintro q a ⟨br, hbr, ht⟩
      exact ⟨br, (h₃.grows q).subset hbr, ht⟩
    refine ⟨hlive, (hreach.mono hedge).step ⟨⟨none, ⟨p.count⟩⟩, ?_, rfl⟩⟩
    exact (h₃.joined c hc).subset (List.mem_append_right _ (List.mem_singleton_self _))

/-- **A loop is closed.** -/
theorem ends_loopExit {exit? : Option BlockId} (h : BodyDone f exit? p l) :
    Ends (do
      let exit ← loopExit f exit?
      (liftM (Track.sealBlock exit) : Lower Unit)
      pure exit) l Refused fun b' l' => ∃ p',
        LoopClosed f.head f.breaks exit? b' p l p' l' := by
  cases exit? with
  | some exit => exact ends_loopExit_some h
  | none =>
    by_cases hbs : f.breaks = []
    · exact ends_loopExit_never h hbs
    · exact ends_loopExit_late h hbs

end Close

end Lower

end BitFlow
