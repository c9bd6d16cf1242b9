import BitFlow.Proofs.Lower.Jump

/-!
# Between the arms of a conditional

While the arms of a conditional are lowered, its block gets code for the conditions and one jump
after the other, and the block where the arms join waits. What an arm adds are new blocks.

Control decides for an arm at the end of the block: the first jump whose condition holds there is
taken, so an arm is followed if its condition holds and no earlier one does.

Main statements: `Forks.trans`, `Decides.orElse` -- one arm after the other.
-/

namespace BitFlow

/-! ## 1. The block and the join -/

/-- **Where an arm of a conditional can be lowered**: `b` is sealed, and `join` waits; it is live if
    `b` is. -/
structure Fork (b join : BlockId) (p : Plan) (l : Lowering) : Prop where
  built : Built p l.tracked
  here : b.index < p.count
  closed : p.closed b = true
  joint : join.index < p.count
  waits : p.closed join = false
  inner : join ≠ Plan.entry
  kind : p.dead join = p.dead b
  live : p.dead b = false → p.Reached b ∧ ∀ f ∈ l.loops, p.dead f.head = false
  loops : ∀ f ∈ l.loops, OpenLoop p f ∧ b ∉ f.breaks ∧ join ∉ f.breaks ∧ f.head ≠ join

theorem Fork.ne {b join : BlockId} {p : Plan} {l : Lowering} (h : Fork b join p l) : join ≠ b := by
  intro e
  have := h.waits
  rw [e, h.closed] at this
  cases this

/-- **What an arm leaves of the plan before.** -/
structure Forks (b : BlockId) (p : Plan) (l : Lowering) (extra : List BlockId) (p' : Plan)
    (l' : Lowering) : Prop where
  leads : Leads p l p' l'
  loops : l'.loops = withBreaks extra l.loops
  outside : l.loops = [] → extra = []
  count : p.count ≤ p'.count
  frame : ∀ c : BlockId, c.index < p.count → c ≠ b → SameBlock p p' c
  dead : p'.dead b = p.dead b
  closed : p'.closed b = p.closed b
  writes : p'.writes b = p.writes b
  code : ∃ new, p'.code b = p.code b ++ new ∧ ∀ v ∈ new, p'.roles.Silent v
  jumps : p.jumps b <+: p'.jumps b
  fresh : ∀ c : BlockId, p.count ≤ c.index → c.index < p'.count → p'.closed c = true
  extra : ∀ c ∈ extra, p.count ≤ c.index ∧ c.index < p'.count

section Forks

variable {b join : BlockId} {p p₁ p₂ : Plan} {l l₁ l₂ : Lowering} {e₁ e₂ : List BlockId}

theorem Forks.refl (h : Built p l.tracked) : Forks b p l [] p l where
  leads := .refl h
  loops := (withBreaks_nil _).symm
  outside := fun _ => rfl
  count := Nat.le_refl _
  frame := fun c _ _ => .refl p c
  dead := rfl
  closed := rfl
  writes := rfl
  code := ⟨[], (List.append_nil _).symm, fun v hv => by cases hv⟩
  jumps := List.prefix_rfl
  fresh := fun _ h1 h2 => absurd h2 (Nat.not_lt_of_le h1)
  extra := fun _ hc => by cases hc

theorem Roles.Silent.mono {R R' : Roles} {v : ValueId} (h : R.Silent v)
    (hk : ∀ {v r}, R v = some r → R' v = some r) : R'.Silent v := by
  obtain ⟨b, ty, i, hi, hu⟩ := h
  exact ⟨b, ty, i, hk hi, hu⟩

/-- **One arm after the other.** -/
theorem Forks.trans (hb : b.index < p.count) (h : Forks b p l e₁ p₁ l₁)
    (h' : Forks b p₁ l₁ e₂ p₂ l₂) : Forks b p l (e₁ ++ e₂) p₂ l₂ := by
  refine ⟨h.leads.trans h'.leads, ?_, fun hl => ?_, Nat.le_trans h.count h'.count,
    fun c hc hne => ?_, h'.dead.trans h.dead, h'.closed.trans h.closed, h'.writes.trans h.writes, ?_,
    h.jumps.trans h'.jumps, fun c h1 h2 => ?_, fun c hc => ?_⟩
  · rw [h'.loops, h.loops, withBreaks_append]
  · rw [h.outside hl, h'.outside (by rw [h.loops, hl]; rfl)]
    rfl
  · exact (h.frame c hc hne).trans (h'.frame c (Nat.lt_of_lt_of_le hc h.count) hne)
  · obtain ⟨new, hc, hs⟩ := h.code
    obtain ⟨new', hc', hs'⟩ := h'.code
    refine ⟨new ++ new', by rw [hc', hc, List.append_assoc], fun v hv => ?_⟩
    rcases List.mem_append.1 hv with hv | hv
    · exact (hs v hv).mono h'.leads.later.roles
    · exact hs' v hv
  · by_cases hc : c.index < p₁.count
    · have hne : c ≠ b := fun e => absurd hb (by rw [← e]; exact Nat.not_lt_of_le h1)
      exact (h'.frame c hc hne).closed.trans (h.fresh c h1 hc)
    · exact h'.fresh c (Nat.le_of_not_lt hc) h2
  · rcases List.mem_append.1 hc with hc | hc
    · exact ⟨(h.extra c hc).1, Nat.lt_of_lt_of_le (h.extra c hc).2 h'.count⟩
    · exact ⟨Nat.le_trans h.count (h'.extra c hc).1, (h'.extra c hc).2⟩

/-- Quiet code at the end of the block. -/
theorem Forks.quiet (hl : Leads p l p₁ l₁) (hloops : l₁.loops = l.loops) {R : Roles}
    {new : List ValueId} (hp : p₁ = p.extend b R new) (hs : ∀ v ∈ new, R.Silent v) :
    Forks b p l [] p₁ l₁ := by
  subst hp
  refine ⟨hl, hloops.trans (withBreaks_nil _).symm, fun _ => rfl, Nat.le_refl _,
    fun c _ hc => .extend hc R new, rfl, rfl, rfl, ⟨new, Plan.code_extend_self .., hs⟩,
    List.prefix_rfl, fun c h1 h2 => absurd h2 (Nat.not_lt_of_le h1), fun c hc => by cases hc⟩

/-- Edges are kept. -/
theorem Forks.edge (h : Forks b p l e₁ p₁ l₁) (hb : Built p l.tracked) {q c : BlockId}
    (he : p.Edge q c) : p₁.Edge q c := by
  obtain ⟨br, hbr, ht⟩ := he
  refine ⟨br, ?_, ht⟩
  by_cases e : q = b
  · subst e
    exact h.jumps.subset hbr
  · rw [(h.frame q (hb.edge_known ⟨br, hbr, ht⟩).1 e).jumps]
    exact hbr

/-- The open loops of before, with the further breaks. -/
theorem mem_withBreaks {fs : List LoopFrame} {f : LoopFrame} (h : f ∈ withBreaks e₁ fs) :
    ∃ g ∈ fs, f.head = g.head ∧ ∀ c ∈ f.breaks, c ∈ g.breaks ∨ c ∈ e₁ := by
  cases fs with
  | nil => cases h
  | cons g rest =>
    rcases List.mem_cons.1 h with rfl | h
    · exact ⟨g, List.mem_cons_self, rfl, fun c hc => List.mem_append.1 hc⟩
    · exact ⟨f, List.mem_cons_of_mem _ h, rfl, fun c hc => .inl hc⟩

/-- **The next arm can be lowered**, if the open loops are in order. -/
theorem Fork.forks (h : Fork b join p l) (hs : Forks b p l e₁ p₁ l₁)
    (hloops : ∀ f ∈ l₁.loops, OpenLoop p₁ f) : Fork b join p₁ l₁ := by
  have hjoin := hs.frame join h.joint h.ne
  refine ⟨hs.leads.built, Nat.lt_of_lt_of_le h.here hs.count, hs.closed.trans h.closed,
    Nat.lt_of_lt_of_le h.joint hs.count, hjoin.closed.trans h.waits, h.inner, ?_, fun hlive => ?_,
    fun f hf => ?_⟩
  · rw [hjoin.dead, hs.dead, h.kind]
  · rw [hs.dead] at hlive
    obtain ⟨h1, h2⟩ := h.live hlive
    refine ⟨h1.mono fun _ _ he => hs.edge h.built he, fun f hf => ?_⟩
    rw [hs.loops] at hf
    obtain ⟨g, hg, hhead, -⟩ := mem_withBreaks hf
    obtain ⟨ho, hb, -, -⟩ := h.loops g hg
    rw [hhead, (ho.frame h.closed hb hs.count hs.frame fun _ _ he => hs.edge h.built he).2]
    exact h2 g hg
  · have hf' := hf
    rw [hs.loops] at hf'
    obtain ⟨g, hg, hhead, hbreaks⟩ := mem_withBreaks hf'
    obtain ⟨-, hb, hj, hne⟩ := h.loops g hg
    refine ⟨hloops f hf, fun hm => ?_, fun hm => ?_, hhead ▸ hne⟩
    · rcases hbreaks b hm with hm | hm
      · exact hb hm
      · exact absurd h.here (Nat.not_lt_of_le (hs.extra b hm).1)
    · rcases hbreaks join hm with hm | hm
      · exact hj hm
      · exact absurd h.joint (Nat.not_lt_of_le (hs.extra join hm).1)

end Forks

/-! ## 2. Deciding for an arm -/

/-- **The finished plan keeps what the arms have added**: the blocks numbered from `n` on, but for
    the jumps of breaks, and the jumps of `b`. -/
structure Settled (F p : Plan) (n : Nat) (b : BlockId) (extra : List BlockId) : Prop where
  code : ∀ c : BlockId, n ≤ c.index → c.index < p.count → F.code c = p.code c
  writes : ∀ c : BlockId, n ≤ c.index → c.index < p.count → F.writes c = p.writes c
  dead : ∀ c : BlockId, n ≤ c.index → c.index < p.count → F.dead c = p.dead c
  jumps : ∀ c : BlockId, n ≤ c.index → c.index < p.count → c ∉ extra → F.jumps c = p.jumps c
  store : F.writes b = p.writes b
  alive : F.dead b = p.dead b
  first : p.jumps b <+: F.jumps b

section Settled

variable {b join : BlockId} {F p p₁ p₂ : Plan} {l l₁ l₂ : Lowering} {e₁ e₂ : List BlockId}

/-- The finished plan keeps what the first of two arms has added. -/
theorem Settled.before (h : Settled F p₂ p.count b (e₁ ++ e₂)) (hb : b.index < p.count)
    (hs' : Forks b p₁ l₁ e₂ p₂ l₂) : Settled F p₁ p.count b e₁ := by
  have hsame : ∀ {c : BlockId}, p.count ≤ c.index → c.index < p₁.count → SameBlock p₁ p₂ c :=
    fun h1 h2 => hs'.frame _ h2 fun e => absurd hb (by rw [← e]; exact Nat.not_lt_of_le h1)
  have hlt : ∀ {c : BlockId}, c.index < p₁.count → c.index < p₂.count :=
    fun h2 => Nat.lt_of_lt_of_le h2 hs'.count
  refine ⟨fun c h1 h2 => ?_, fun c h1 h2 => ?_, fun c h1 h2 => ?_, fun c h1 h2 he => ?_, ?_, ?_, ?_⟩
  · rw [h.code c h1 (hlt h2), (hsame h1 h2).code]
  · rw [h.writes c h1 (hlt h2), (hsame h1 h2).writes]
  · rw [h.dead c h1 (hlt h2), (hsame h1 h2).dead]
  · rw [h.jumps c h1 (hlt h2) fun hm => ?_, (hsame h1 h2).jumps]
    rcases List.mem_append.1 hm with hm | hm
    · exact he hm
    · exact absurd h2 (Nat.not_lt_of_le (hs'.extra c hm).1)
  · rw [h.store, hs'.writes]
  · rw [h.alive, hs'.dead]
  · exact hs'.jumps.trans h.first

/-- The finished plan keeps what the second of two arms has added. -/
theorem Settled.after (h : Settled F p₂ p.count b (e₁ ++ e₂)) (hs : Forks b p l e₁ p₁ l₁) :
    Settled F p₂ p₁.count b e₂ := by
  have hle : ∀ {c : BlockId}, p₁.count ≤ c.index → p.count ≤ c.index :=
    fun h1 => Nat.le_trans hs.count h1
  refine ⟨fun c h1 => h.code c (hle h1), fun c h1 => h.writes c (hle h1),
    fun c h1 => h.dead c (hle h1), fun c h1 h2 he => h.jumps c (hle h1) h2 fun hm => ?_, h.store,
    h.alive, h.first⟩
  rcases List.mem_append.1 hm with hm | hm
  · exact absurd (hs.extra c hm).2 (Nat.not_lt_of_le h1)
  · exact he hm

end Settled

/-- Control is at the end of `b`, and takes none of the jumps that are planned so far. -/
structure Play.Undecided {w : World} {vars : List Variable} (P : Play w vars) (p : Plan)
    (b : BlockId) (π : List BlockId) (μ : Memory) : Prop where
  atEnd : P.AtEnd b π μ
  passes : ∀ br ∈ p.jumps b, P.takes π br = false

section Undecided

variable {w : World} {vars : List Variable} {P : Play w vars} {p : Plan} {b : BlockId}
  {π : List BlockId} {μ : Memory}

/-- Control is only in live blocks. -/
theorem Play.AtEnd.live (h : P.AtEnd b π μ) (hentry : P.plan.dead Plan.entry = false) :
    P.plan.dead b = false := by
  cases h with
  | mk path _ _ => exact Play.live_of_path hentry path

/-- A jump from a block whose jumps so far are not taken. -/
theorem Play.Undecided.jump (h : P.Undecided p b π μ) (cond : Option Operand) (c : BlockId)
    (hlive : p.dead b = false) (hpre : (p.jump b cond c).jumps b <+: P.plan.jumps b) :
    (P.takes π ⟨cond, c⟩ = true → P.next π = some c) ∧
      (P.takes π ⟨cond, c⟩ = false → P.Undecided (p.jump b cond c) b π μ) := by
  rw [Plan.jumps_jump_self hlive] at hpre
  constructor
  · exact h.atEnd.next _ _ hpre h.passes
  · intro ht
    refine ⟨h.atEnd, fun br hbr => ?_⟩
    rw [Plan.jumps_jump_self hlive] at hbr
    rcases List.mem_append.1 hbr with hbr | hbr
    · exact h.passes br hbr
    · rw [List.mem_singleton.1 hbr]
      exact ht

end Undecided

/-- Where control is to be after an arm. -/
def Play.armExits {w : World} {vars : List Variable} (P : Play w vars) (p : Plan) (join : BlockId)
    (extra : List BlockId) (head : Option BlockId) (step : Act) : Exits where
  onward := P.Enters join
  leave := fun π μ => ∃ c ∈ extra, P.At p c π μ
  again := fun π μ => ∃ c ∈ head, P.Enters c π μ
  step := step

/-- **Control decides by `test`**: if it holds, it follows the act to the join, and if not, it takes
    none of the jumps that have been added. -/
def Decides (w : World) (step : Act) (test : Store → Bool) (act : Act) (b join : BlockId) (p : Plan)
    (l : Lowering) (extra : List BlockId) (p' : Plan) (l' : Lowering) : Prop :=
  ∀ (vars : List Variable) (P : Play w vars), P.Completes p' l' →
    Settled P.plan p' p.count b extra → ∀ (n : Nat) {π : List BlockId} {μ : Memory},
      P.Undecided p b π μ →
        (test μ.store = true →
          P.Follows (P.armExits p' join extra (innermostHead l.loops) step) π n (act n μ)) ∧
        (test μ.store = false → P.Undecided p' b π μ)

section Decides

variable {w : World} {step act act' x y : Act} {test test' s t : Store → Bool}
  {b join : BlockId} {p p₁ p₂ : Plan} {l l₁ l₂ : Lowering} {e e₁ e₂ : List BlockId}

/-- Where there is no arm, none is taken. -/
theorem Decides.none : Decides w step (fun _ => false) act b join p l [] p l :=
  fun _ _ _ _ _ _ _ h => ⟨(fun ht => Bool.noConfusion ht), fun _ => h⟩

theorem Decides.congr (h : Decides w step test act b join p l e p₁ l₁)
    (ht : ∀ σ, test' σ = test σ)
    (hact : ∀ n μ, test μ.store = true → act' n μ = act n μ) :
    Decides w step test' act' b join p l e p₁ l₁ := by
  intro vars P hP hs n π μ hu
  obtain ⟨h1, h2⟩ := h vars P hP hs n hu
  rw [ht]
  exact ⟨fun hc => by rw [hact n μ hc]; exact h1 hc, h2⟩

/-- **One arm after the other.** -/
theorem Decides.orElse (hb : b.index < p.count) (hs : Forks b p l e₁ p₁ l₁)
    (hs' : Forks b p₁ l₁ e₂ p₂ l₂) (h : Decides w step s x b join p l e₁ p₁ l₁)
    (h' : Decides w step t y b join p₁ l₁ e₂ p₂ l₂) :
    Decides w step (fun σ => s σ || t σ) (fun n μ => if s μ.store then x n μ else y n μ) b join p l
      (e₁ ++ e₂) p₂ l₂ := by
  intro vars P hP hset n π μ hu
  obtain ⟨hyes, hno⟩ := h vars P (hP.back hs'.leads) (hset.before hb hs') n hu
  have hhead : innermostHead l₁.loops = innermostHead l.loops := by
    rw [hs.loops, innermostHead_withBreaks]
  dsimp only
  cases hsc : s μ.store with
  | true =>
    refine ⟨fun _ => ?_, fun hf => Bool.noConfusion hf⟩
    rw [if_pos rfl]
    refine (hyes hsc).mono rfl .here ?_ .here
    rintro π' μ' ⟨c, hc, hat⟩
    have hsame := hs'.frame c (hs.extra c hc).2 fun e => absurd hb
      (by rw [← e]; exact Nat.not_lt_of_le (hs.extra c hc).1)
    exact .here ⟨c, List.mem_append_left _ hc, hat.same hsame.code hsame.writes⟩
  | false =>
    obtain ⟨hyes', hno'⟩ := h' vars P hP (hset.after hs) n (hno hsc)
    rw [hhead] at hyes'
    rw [Bool.false_or, if_neg Bool.false_ne_true]
    refine ⟨fun htc => (hyes' htc).mono rfl .here ?_ .here, hno'⟩
    rintro π' μ' ⟨c, hc, hat⟩
    exact .here ⟨c, List.mem_append_right _ hc, hat⟩

/-- Quiet code before an arm. -/
theorem Decides.quiet (hs : Forks b p l [] p₁ l₁) (hj : p₁.jumps b = p.jumps b)
    (hc : p₁.count = p.count) (h : Decides w step test act b join p₁ l₁ e p₂ l₂) :
    Decides w step test act b join p l e p₂ l₂ := by
  intro vars P hP hset n π μ hu
  rw [← hc] at hset
  have := h vars P hP hset n ⟨hu.atEnd, by rw [hj]; exact hu.passes⟩
  rwa [hs.loops, innermostHead_withBreaks] at this

end Decides

end BitFlow
