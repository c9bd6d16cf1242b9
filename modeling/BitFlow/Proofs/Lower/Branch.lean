import BitFlow.Proofs.Lower.Fork

/-!
# Lowering conditionals

An arm is a jump to the join, or a jump to a new block in which its body is lowered and from the end
of which a jump leads to the join. The arms are tried in their order; what is known to be false is
left out, and behind what is known to be true there is nothing to try.

Main statement: `Lower.lowers_branch`.
-/

namespace BitFlow

namespace Lower

variable {w : World} {vars : List Variable} {T : Prop} {step act : Act} {b join : BlockId}
  {p : Plan} {l : Lowering}

/-! ## 1. One arm -/

/-- The condition of a jump holds at the end of `b` where `test` does. -/
def Gauges (w : World) (b : BlockId) (p : Plan) (l : Lowering) (cond : Option Operand)
    (test : Store → Bool) : Prop :=
  ∀ (vars : List Variable) (P : Play w vars), P.Completes p l → P.plan.writes b = p.writes b →
    ∀ {π : List BlockId} {μ : Memory}, P.AtEnd b π μ → ∀ c, P.takes π ⟨cond, c⟩ = test μ.store

theorem gauges_none : Gauges w b p l none fun _ => true := fun _ _ _ _ _ _ _ _ => rfl

theorem gauges_of_denotes {o : Operand} {g : Store → Literal} {test : Store → Bool}
    (hd : Denotes w b p l.bench o .bit g) (ht : ∀ σ, (g σ).isTrue = test σ) :
    Gauges w b p l (some o) test := by
  intro vars P hP hw π μ h c
  cases h with
  | mk path store trace =>
    show (P.meaning.mean o _).isTrue = _
    rw [hd.mean hP.models hP.runs _ path, ht, ← store]
    congr 1
    funext x
    rw [P.store x path]
    unfold Meaning.content
    rw [hw]

/-- An arm without statements. -/
theorem ends_emptyArm (h : Fork b join p l) {cond : Option Operand} {test : Store → Bool}
    (hc : ∀ o ∈ cond, Offers p l.tracked b o)
    (hg : T → p.Reached b → Gauges w b p l cond test) :
    Ends (liftM (Edit.addEdge b cond join) : Lower Unit) l Refused fun _ l' => ∃ p' extra,
      Fork b join p' l' ∧ Forks b p l extra p' l' ∧
        (T → Decides w step test .skip b join p l extra p' l') := by
  refine ends_addEdge h.built h.here h.joint (fun hd => ?_) fun l' hl hloops => ?_
  · exact ⟨(h.live hd).1, h.kind.trans hd, h.inner, h.waits, hc⟩
  have hforks : Forks b p l [] (p.jump b cond join) l' := by
    refine ⟨hl, hloops.trans (withBreaks_nil _).symm, fun _ => rfl,
      Nat.le_of_eq (Plan.count_jump ..).symm, fun c _ hc => .jump hc _ _, by rw [Plan.dead_jump],
      by rw [Plan.closed_jump], by rw [Plan.writes_jump],
      ⟨[], by rw [Plan.code_jump, List.append_nil], fun v hv => by cases hv⟩,
      Plan.jumps_jump ..,
      fun c h1 h2 => absurd h2 (by rw [Plan.count_jump]; exact Nat.not_lt_of_le h1),
      fun c hc => by cases hc⟩
  refine ⟨_, [], h.forks hforks fun f hf => ?_, hforks, fun ht vars P hP hset n π μ hu => ?_⟩
  · rw [hloops] at hf
    obtain ⟨ho, hb, -, -⟩ := h.loops f hf
    refine ho.mono (Nat.le_of_eq (Plan.count_jump ..).symm) (by simp) (fun c hc => ⟨by simp, ?_⟩)
      fun _ _ he => Plan.edge_jump he
    exact (SameBlock.jump (fun e : c = b => hb (e ▸ hc)) _ _).jumps
  · have hlive : p.dead b = false := by
      rw [← hu.atEnd.live hP.live, hset.alive, Plan.dead_jump]
    have htest := hg ht (h.live hlive).1 _ P (hP.back hl)
      (by rw [hset.store, Plan.writes_jump]) hu.atEnd join
    obtain ⟨hyes, hno⟩ := hu.jump _ _ hlive hset.first
    rw [htest] at hyes hno
    exact ⟨fun hc => hu.atEnd.arrives (hyes hc), hno⟩

/-- **The first block of an arm was opened**: it is new, sealed and empty, and `b` jumps there. -/
structure Opened (b first : BlockId) (cond : Option Operand) (p : Plan) (l : Lowering) (p' : Plan)
    (l' : Lowering) : Prop where
  leads : Leads p l p' l'
  loops : l'.loops = l.loops
  name : first.index = p.count
  count : p'.count = p.count + 1
  frame : ∀ c : BlockId, c.index < p.count → c ≠ b → SameBlock p p' c
  code : p'.code b = p.code b
  writes : p'.writes b = p.writes b
  dead : p'.dead b = p.dead b
  closed : p'.closed b = p.closed b
  jumps : p'.jumps b = (p.jump b cond first).jumps b
  bare : p'.code first = [] ∧ p'.jumps first = [] ∧ ∀ x, p'.writes first x = none
  kind : p'.dead first = p.dead b
  isClosed : p'.closed first = true

theorem ends_openArm {label : String} (h : Fork b join p l) {cond : Option Operand}
    (hc : ∀ o ∈ cond, Offers p l.tracked b o) {rest : BlockId → Lower Unit}
    {Q : Unit → Lowering → Prop}
    (hQ : ∀ first p' l', Opened b first cond p l p' l' → Ends (rest first) l' Refused Q) :
    Ends (do
      let first ← newBlock label b
      (liftM (Edit.addEdge b cond first) : Lower Unit)
      (liftM (Track.sealBlock first) : Lower Unit)
      rest first) l Refused Q := by
  rw [Ends.bind_iff]
  refine ends_newBlock h.built h.here fun l₁ hl₁ hloops₁ ha₁ => ?_
  obtain ⟨hclosed, hcode, hjumps, hwrites⟩ := h.built.bare (c := ⟨p.count⟩) (Nat.le_refl _)
  have hne : ∀ {c : BlockId}, c.index < p.count → c ≠ ⟨p.count⟩ :=
    fun hc e => absurd hc (by rw [e]; exact Nat.lt_irrefl _)
  have hd : (p.block (p.dead b)).dead b = p.dead b := Plan.dead_block_of_lt h.here _
  rw [Ends.bind_iff]
  refine ends_addEdge hl₁.built (Nat.lt_succ_of_lt h.here) (Nat.lt_succ_self _) (fun hlive => ?_)
    fun l₂ hl₂ hloops₂ => ?_
  · rw [hd] at hlive
    exact ⟨(h.live hlive).1, (p.dead_block_self _).trans hlive, (hne h.built.entry_known).symm,
      hclosed, fun o ho => (hc o ho).later hl₁.later ha₁⟩
  rw [Ends.bind_iff]
  refine ends_sealBlock hl₂.built (by simp [Plan.block])
    (by rw [Plan.closed_jump]; exact hclosed) fun l₃ roles hl₃ hloops₃ => ?_
  refine hQ _ _ l₃ ⟨(hl₁.trans hl₂).trans hl₃, (hloops₃.trans hloops₂).trans hloops₁, rfl,
    Plan.count_jump .., fun c hc hcb => ?_, ?_, ?_, ?_, ?_, ?_, ⟨?_, ?_, ?_⟩, ?_,
    Plan.closed_close_self ..⟩
  · exact ((SameBlock.block hc _).trans (.jump hcb _ _)).trans (.close (hne hc) _)
  · show ((p.block (p.dead b)).jump b cond _).code b = _
    rw [Plan.code_jump]
    rfl
  · show ((p.block (p.dead b)).jump b cond _).writes b = _
    rw [Plan.writes_jump]
    rfl
  · show ((p.block (p.dead b)).jump b cond _).dead b = _
    rw [Plan.dead_jump, hd]
  · rw [Plan.closed_close_of_ne (hne h.here), Plan.closed_jump]
    rfl
  · show ((p.block (p.dead b)).jump b cond _).jumps b = _
    unfold Plan.jump
    rw [hd]
    cases p.dead b <;> rfl
  · show ((p.block (p.dead b)).jump b cond _).code _ = _
    rw [Plan.code_jump]
    exact hcode
  · show ((p.block (p.dead b)).jump b cond _).jumps _ = _
    rw [(SameBlock.jump (hne h.here).symm cond _).jumps]
    exact hjumps
  · show ∀ x, ((p.block (p.dead b)).jump b cond _).writes _ x = _
    rw [Plan.writes_jump]
    exact hwrites
  · show ((p.block (p.dead b)).jump b cond _).dead _ = _
    rw [Plan.dead_jump]
    exact p.dead_block_self _

section Opened

variable {first : BlockId} {cond : Option Operand} {p₁ : Plan} {l₁ : Lowering}

theorem Opened.edge (h : Opened b first cond p l p₁ l₁) (hb : Built p l.tracked) {q c : BlockId}
    (he : p.Edge q c) : p₁.Edge q c := by
  obtain ⟨br, hbr, ht⟩ := he
  refine ⟨br, ?_, ht⟩
  by_cases e : q = b
  · subst e
    rw [h.jumps]
    exact (Plan.jumps_jump ..).subset hbr
  · rw [(h.frame q (hb.edge_known ⟨br, hbr, ht⟩).1 e).jumps]
    exact hbr

/-- Statements can be lowered in the first block of an arm. -/
theorem Opened.good (h : Opened b first cond p l p₁ l₁) (hf : Fork b join p l) :
    Good first p₁ l₁ := by
  have hedge : ∀ q c, p.Edge q c → p₁.Edge q c := fun _ _ he => h.edge hf.built he
  have hopen : ∀ {f}, f ∈ l.loops → OpenLoop p₁ f ∧ p₁.dead f.head = p.dead f.head := fun hm =>
    (hf.loops _ hm).1.frame hf.closed (hf.loops _ hm).2.1 (by rw [h.count]; exact Nat.le_succ _)
      h.frame hedge
  refine ⟨h.leads.built, by rw [h.count, h.name]; exact Nat.lt_succ_self _, h.isClosed, h.bare.2.1,
    fun hlive => ?_, fun f hm => ?_⟩
  · rw [h.kind] at hlive
    obtain ⟨h1, h2⟩ := hf.live hlive
    have he : p₁.Edge b first := by
      refine ⟨⟨cond, first⟩, ?_, rfl⟩
      rw [h.jumps, Plan.jumps_jump_self hlive]
      exact List.mem_append_right _ (List.mem_singleton_self _)
    refine ⟨(h1.mono hedge).step he, fun f hm => ?_⟩
    rw [h.loops] at hm
    exact (hopen hm).2.trans (h2 f hm)
  · rw [h.loops] at hm
    refine ⟨(hopen hm).1, fun hb => ?_⟩
    exact absurd ((hf.loops f hm).1.breaks first hb).1 (by rw [h.name]; exact Nat.lt_irrefl _)

variable {last : BlockId} {p₂ : Plan} {l₂ l₃ : Lowering} {extra : List BlockId}

/-- What was there before an arm is not touched by its body. -/
theorem Opened.same (h : Opened b first cond p l p₁ l₁) (join : BlockId)
    (hs : Spans first p₁ l₁ extra last p₂ l₂) {c : BlockId} (hc : c.index < p.count) :
    SameBlock p₁ (p₂.jump last none join) c := by
  have hlt : c.index < p₁.count := by
    rw [h.count]
    exact Nat.lt_succ_of_lt hc
  have hne : c ≠ first := fun e => absurd hc (by rw [e, h.name]; exact Nat.lt_irrefl _)
  exact (hs.frame c hlt hne).trans (.jump (hs.ne_next hlt hne) _ _)

/-- The blocks of an arm are new. -/
theorem Opened.region (h : Opened b first cond p l p₁ l₁) {c : BlockId}
    (hc : c = first ∨ p₁.count ≤ c.index) : p.count ≤ c.index := by
  rcases hc with e | e
  · rw [e, h.name]
  · rw [h.count] at e
    exact Nat.le_of_succ_le e

/-- **An arm leaves what it should of the plan before.** -/
theorem Opened.forks (h : Opened b first cond p l p₁ l₁) (hf : Fork b join p l)
    (hs : Spans first p₁ l₁ extra last p₂ l₂) (hg : Good last p₂ l₂)
    (hl : Leads p₂ l₂ (p₂.jump last none join) l₃) (hloops : l₃.loops = l₂.loops) :
    Forks b p l extra (p₂.jump last none join) l₃ := by
  have hb : SameBlock p₁ (p₂.jump last none join) b := h.same join hs hf.here
  refine ⟨(h.leads.trans hs.leads).trans hl, hloops.trans (hs.loops.trans (by rw [h.loops])),
    fun e => hs.outside (h.loops.trans e), ?_,
    fun c hc hcb => (h.frame c hc hcb).trans (h.same join hs hc),
    hb.dead.trans h.dead, hb.closed.trans h.closed, hb.writes.trans h.writes,
    ⟨[], by rw [hb.code, h.code, List.append_nil], fun v hv => by cases hv⟩, ?_,
    fun c h1 h2 => ?_, fun c hm => ⟨h.region (hs.extra c hm), ?_⟩⟩
  · rw [Plan.count_jump]
    exact Nat.le_trans (by rw [h.count]; exact Nat.le_succ _) hs.count
  · rw [hb.jumps, h.jumps]
    exact Plan.jumps_jump ..
  · rw [Plan.closed_jump]
    rw [Plan.count_jump] at h2
    by_cases e : c = first
    · rw [e, hs.closed, h.isClosed]
    · refine hs.fresh c ?_ h2
      rw [h.count]
      exact Nat.lt_of_le_of_ne h1 fun e' => e (BlockId.eq_of_index (by rw [h.name, e']))
  · rw [Plan.count_jump]
    exact (hs.extra_known hg hm).1

/-- What the finished plan keeps of an arm it keeps of its body. -/
theorem Opened.agrees (h : Opened b first cond p l p₁ l₁) (hs : Spans first p₁ l₁ extra last p₂ l₂)
    (hg : Good last p₂ l₂) {F : Plan}
    (hset : Settled F (p₂.jump last none join) p.count b extra) :
    Agrees F p₂ p₁.count first last extra := by
  have hcount : ∀ {c : BlockId}, c.index < p₂.count → c.index < (p₂.jump last none join).count :=
    fun hc => by rw [Plan.count_jump]; exact hc
  refine ⟨fun c hr hc _ => ?_, fun c hr hc _ => ?_, fun c hr hc => ?_, fun c hr hc hcl he => ?_, ?_⟩
  · rw [hset.code c (h.region hr) (hcount hc), Plan.code_jump]
  · rw [hset.writes c (h.region hr) (hcount hc), Plan.writes_jump]
  · rw [hset.dead c (h.region hr) (hcount hc), Plan.dead_jump]
  · rw [hset.jumps c (h.region hr) (hcount hc) he, (SameBlock.jump hcl none join).jumps]
  · rw [hset.code last (h.region hs.next) (hcount hg.here), Plan.code_jump]

/-- From the end of the body of an arm control enters the join. -/
theorem Opened.arrives (h : Opened b first cond p l p₁ l₁) (hs : Spans first p₁ l₁ extra last p₂ l₂)
    (hg : Good last p₂ l₂) {P : Play w vars}
    (hset : Settled P.plan (p₂.jump last none join) p.count b extra)
    (hentry : P.plan.dead Plan.entry = false) {π : List BlockId} {μ : Memory}
    (hat : P.At p₂ last π μ) : P.Arrives π (P.Enters join) μ := by
  have hlast := h.region hs.next
  have hcount : last.index < (p₂.jump last none join).count := by
    rw [Plan.count_jump]
    exact hg.here
  have hdead : p₂.dead last = false := by
    have hF := hset.dead last hlast hcount
    rw [Plan.dead_jump] at hF
    rw [← hF]
    cases hat with
    | mk path _ _ => exact Play.live_of_path hentry path
  refine hat.arrives (by rw [hset.code last hlast hcount, Plan.code_jump])
    (by rw [hset.writes last hlast hcount, Plan.writes_jump]) ?_
  rw [hset.jumps last hlast hcount fun hm => (hs.extra_known hg hm).2 rfl,
    Plan.jumps_jump_self hdead, hg.free]
  exact List.prefix_rfl

end Opened

/-- An arm with statements, which are lowered in a new block. -/
theorem ends_fullArm {label : String} {body : BlockId → Lower BlockId}
    (hbody : Lowers w vars T step act body) (h : Fork b join p l) (hv : l.vars = vars)
    {cond : Option Operand} {test : Store → Bool} (hc : ∀ o ∈ cond, Offers p l.tracked b o)
    (hg : T → p.Reached b → Gauges w b p l cond test) :
    Ends (do
      let first ← newBlock label b
      (liftM (Edit.addEdge b cond first) : Lower Unit)
      (liftM (Track.sealBlock first) : Lower Unit)
      let last ← body first
      (liftM (Edit.addEdge last none join) : Lower Unit)) l Refused fun _ l' => ∃ p' extra,
        Fork b join p' l' ∧ Forks b p l extra p' l' ∧
          (T → Decides w step test act b join p l extra p' l') := by
  refine ends_openArm h hc fun first p₁ l₁ h₁ => ?_
  rw [Ends.bind_iff]
  refine (hbody (h₁.good h) (h₁.leads.vars.trans hv)).mono
    fun last l₂ ⟨p₂, extra, hg₂, hs₂, hsim⟩ => ?_
  have hjoin := (h₁.frame join h.joint h.ne).trans (h₁.same join hs₂ h.joint)
  refine ends_addEdge hg₂.built hg₂.here ?_ (fun hd => ?_) fun l₃ hl₃ hloops₃ => ?_
  · exact Nat.lt_of_lt_of_le h.joint
      (Nat.le_trans (by rw [h₁.count]; exact Nat.le_succ _) hs₂.count)
  · have hfirst := hs₂.live hd
    rw [h₁.kind] at hfirst
    have hdead := hjoin.dead
    have hclosed := hjoin.closed
    rw [Plan.dead_jump] at hdead
    rw [Plan.closed_jump] at hclosed
    exact ⟨(hg₂.live hd).1, hdead.trans (h.kind.trans hfirst), h.inner, hclosed.trans h.waits,
      fun o ho => by cases ho⟩
  have hforks := h₁.forks h hs₂ hg₂ hl₃ hloops₃
  have hb : SameBlock p₁ (p₂.jump last none join) b := h₁.same join hs₂ h.here
  refine ⟨_, extra, h.forks hforks fun f hf => ?_, hforks, fun ht vars P hP hset n π μ hu => ?_⟩
  · rw [hloops₃] at hf
    obtain ⟨ho, hnot⟩ := hg₂.loops f hf
    refine ho.mono (Nat.le_of_eq (Plan.count_jump ..).symm) (by simp) (fun c hc => ⟨by simp, ?_⟩)
      fun _ _ he => Plan.edge_jump he
    exact (SameBlock.jump (fun e : c = last => hnot (e ▸ hc)) _ _).jumps
  · have hlive : p.dead b = false := by
      rw [← hu.atEnd.live hP.live, hset.alive, hb.dead, h₁.dead]
    have hP₂ := hP.back hl₃
    have htest := hg ht (h.live hlive).1 _ P ((hP₂.back hs₂.leads).back h₁.leads)
      (by rw [hset.store, hb.writes, h₁.writes]) hu.atEnd first
    obtain ⟨hyes, hno⟩ := hu.jump cond first hlive
      (by rw [← h₁.jumps, ← hb.jumps]; exact hset.first)
    rw [htest] at hyes hno
    refine ⟨fun htc => ?_, fun htc => ⟨hu.atEnd, ?_⟩⟩
    · -- the body is followed from the first block of the arm
      have hat := (hu.atEnd.enters (hyes htc)).at (p := p₁) h₁.bare.1 h₁.bare.2.2
      have hfollow := hsim ht P hP₂ (h₁.agrees hs₂ hg₂ hset) n hat
      rw [h₁.loops] at hfollow
      refine (hfollow.goes (.step .refl (hyes htc)) (Nat.le_of_lt (by simp))).mono rfl
        (fun hat' => h₁.arrives hs₂ hg₂ hset hP.live hat') ?_ .here
      rintro π' μ' ⟨c, hc, hat'⟩
      exact .here ⟨c, hc, hat'.same (by rw [Plan.code_jump]) (by rw [Plan.writes_jump])⟩
    · rw [hb.jumps, h₁.jumps]
      exact (hno htc).passes

/-- **One arm.** -/
theorem ends_arm {label : String} {isEmpty : Bool} {body : BlockId → Lower BlockId}
    (test : Store → Bool) (hbody : Lowers w vars T step act body)
    (hempty : isEmpty = true → act = .skip) (h : Fork b join p l) (hv : l.vars = vars)
    {cond : Option Operand}
    (hc : ∀ o ∈ cond, Offers p l.tracked b o) (hg : T → p.Reached b → Gauges w b p l cond test) :
    Ends (arm label b join cond isEmpty body) l Refused fun _ l' => ∃ p' extra,
      Fork b join p' l' ∧ Forks b p l extra p' l' ∧
        (T → Decides w step test act b join p l extra p' l') := by
  unfold arm
  split
  · rename_i he
    rw [hempty he]
    exact ends_emptyArm h hc hg
  · exact ends_fullArm hbody h hv hc hg

/-! ## 2. All arms -/

section Arms

variable {ports : List Port}

/-- The first arm whose condition holds is what counts, whatever comes behind all arms. -/
theorem execArms_eq (arms : List (Expr × List Stmt)) (otherwise : Act) (n : Nat) (μ : Memory) :
    w.execArms ports arms otherwise n μ =
      if arms.any (fun a => (w.eval μ.store a.1).isTrue) = true then
        w.execArms ports arms .skip n μ
      else otherwise n μ := by
  induction arms with
  | nil =>
    rw [World.execArms]
    rfl
  | cons a rest ih =>
    obtain ⟨cond, body⟩ := a
    rw [World.execArms, World.execArms]
    dsimp only
    rw [List.any_cons]
    cases (w.eval μ.store cond).isTrue with
    | true => simp
    | false =>
      rw [Bool.false_or]
      simpa using ih

/-- **The action lowers the arms**; it says whether one of them is always taken. -/
def LowersArms (w : World) (vars : List Variable) (ports : List Port) (T : Prop) (step : Act)
    (b join : BlockId) (arms : List (Expr × List Stmt)) (run : Lower Bool) : Prop :=
  ∀ ⦃p : Plan⦄ ⦃l : Lowering⦄, Fork b join p l → l.vars = vars →
    Ends run l Refused fun closed l' => ∃ p' extra, Fork b join p' l' ∧ Forks b p l extra p' l' ∧
      (T → (closed = true → ∀ σ, arms.any (fun a => (w.eval σ a.1).isTrue) = true) ∧
        Decides w step (fun σ => arms.any fun a => (w.eval σ a.1).isTrue)
          (w.execArms ports arms .skip) b join p l extra p' l')

theorem lowersArms_nil : LowersArms w vars ports T step b join [] (pure false) := by
  intro p l h _
  exact ⟨p, [], h, .refl h.built, fun _ => ⟨fun hc => (by cases hc), .none⟩⟩

/-- A condition that can be evaluated without variables has that value in every store. -/
theorem isTrue_of_known {cond : Expr} {limit : Nat} {v : Bool} (ht : (cond.typeIn vars).isSome = true)
    (hk : (cond.evalWithin limit).map Literal.isTrue = some v) (σ : Store) :
    (w.eval σ cond).isTrue = v := by
  obtain ⟨ty, hty⟩ := Option.isSome_iff_exists.1 ht
  obtain ⟨c, hc, rfl⟩ := Option.map_eq_some_iff.1 hk
  rw [(World.eval_evalWithin cond hty hc).2 σ]

/-- **An arm before others.** -/
theorem lowersArms_cons {label : String} {cond : Expr} {body : List Stmt}
    {rest : List (Expr × List Stmt)} {run : BlockId → Lower BlockId} {runRest : Lower Bool}
    (ht : T → (cond.typeIn vars).isSome = true)
    (hbody : Lowers w vars T step (w.execAll ports body) run)
    (hrest : LowersArms w vars ports T step b join rest runRest) :
    LowersArms w vars ports T step b join ((cond, body) :: rest) (do
      let known ← (liftM (Build.knownCondition cond) : Lower (Option Bool))
      if known = some false then runRest
      else
        let test ←
          if known = some true then pure none
          else do
            enter b
            let c ← (liftM (Build.lowerCondition cond) : Lower Operand)
            pure (some c)
        arm label b join test body.isEmpty run
        if known = some true then pure true else runRest) := by
  intro p l h hv
  have hempty : body.isEmpty = true → w.execAll ports body = .skip := by
    intro he
    rw [List.isEmpty_iff.1 he, World.execAll]
  rw [Ends.bind_iff]
  refine ends_knownCondition ?_
  dsimp only
  split
  · -- the arm is left out
    rename_i hk
    refine (hrest h hv).mono fun closed l' ⟨p', extra, hf, hs, hd⟩ => ?_
    refine ⟨p', extra, hf, hs, fun hT => ?_⟩
    have hno := isTrue_of_known (w := w) (ht hT) hk
    obtain ⟨hclosed, hdec⟩ := hd hT
    refine ⟨fun hc σ => ?_, hdec.congr (fun σ => ?_) fun n μ _ => ?_⟩
    · rw [List.any_cons, hclosed hc σ, Bool.or_true]
    · rw [List.any_cons, hno σ, Bool.false_or]
    · rw [World.execArms]
      simp [hno μ.store]
  split
  · -- the arm is taken if the earlier ones are not, and nothing comes behind it
    rename_i hk
    rw [Ends.bind_iff, Ends.pure_iff, Ends.bind_iff]
    refine (ends_arm (fun _ => true) hbody hempty h hv (fun o ho => by cases ho)
      fun _ _ => gauges_none).mono fun _ l' ⟨p', extra, hf, hs, hd⟩ => ?_
    refine ⟨p', extra, hf, hs, fun hT => ?_⟩
    have hyes := isTrue_of_known (w := w) (ht hT) hk
    refine ⟨fun _ σ => by rw [List.any_cons, hyes σ, Bool.true_or],
      (hd hT).congr (fun σ => by rw [List.any_cons, hyes σ, Bool.true_or]) fun n μ _ => ?_⟩
    rw [World.execArms]
    simp [hyes μ.store]
  · -- the condition is tested, and the other arms come behind
    refine ends_lowerCondition tolerates_refused w h.built h.here
      fun o l₁ p₁ hq hloops ho hden => ?_
    obtain ⟨R, new, hp₁, hsilent⟩ := hq.plan
    have hs₁ : Forks b p l [] p₁ l₁ :=
      .quiet ⟨hq.built, hq.later, hq.vars, hq.limit⟩ hloops hp₁ hsilent
    have hcount : p₁.count = p.count := hq.count
    have hjumps : p₁.jumps b = p.jumps b := by
      rw [hp₁]
      rfl
    have hf₁ : Fork b join p₁ l₁ := h.forks hs₁ fun f hf => by
      rw [hloops] at hf
      obtain ⟨ho', hb, -, -⟩ := h.loops f hf
      exact (ho'.frame h.closed hb hs₁.count hs₁.frame fun _ _ he => hs₁.edge h.built he).1
    rw [Ends.bind_iff, Ends.pure_iff, Ends.bind_iff]
    refine (ends_arm (fun σ => (w.eval σ cond).isTrue) hbody hempty hf₁
      (hs₁.leads.vars.trans hv) (fun a ha => by cases ha; exact ho) fun hT hreach => ?_).mono
      fun _ l₂ ⟨p₂, e₂, hf₂, hs₂, hd₂⟩ => ?_
    · obtain ⟨ty, hty⟩ := Option.isSome_iff_exists.1 (ht hT)
      obtain ⟨g, hg, hgt⟩ := hden ty (by rw [hv]; exact hty) (hq.reached.1 hreach)
      exact gauges_of_denotes hg hgt
    refine (hrest hf₂ (hs₂.leads.vars.trans (hs₁.leads.vars.trans hv))).mono
      fun closed l₃ ⟨p₃, e₃, hf₃, hs₃, hd₃⟩ => ?_
    refine ⟨p₃, e₂ ++ e₃, hf₃, ?_, fun hT => ⟨fun hc σ => ?_, ?_⟩⟩
    · show Forks b p l ([] ++ (e₂ ++ e₃)) p₃ l₃
      exact hs₁.trans h.here (hs₂.trans hf₁.here hs₃)
    · rw [List.any_cons, (hd₃ hT).1 hc σ, Bool.or_true]
    · refine Decides.quiet hs₁ hjumps hcount ?_
      refine ((hd₂ hT).orElse hf₁.here hs₂ hs₃ (hd₃ hT).2).congr (fun σ => ?_) fun n μ _ => ?_
      · rw [List.any_cons]
      · rw [World.execArms]

end Arms

/-! ## 3. The join -/

/-- **The join was closed**; it is dead if no arm leads there. -/
structure JoinClosed (join : BlockId) (p : Plan) (l : Lowering) (p' : Plan) (l' : Lowering) : Prop where
  leads : Leads p l p' l'
  loops : l'.loops = l.loops
  count : p'.count = p.count
  frame : ∀ c, c ≠ join → SameBlock p p' c
  code : p'.code join = p.code join
  writes : p'.writes join = p.writes join
  jumps : p'.jumps join = p.jumps join
  closed : p'.closed join = true
  live : p'.dead join = false → p.dead join = false ∧ ∃ q, p.Edge q join

theorem ends_sealJoin (h : Fork b join p l) (hj : p.jumps join = []) :
    Ends (sealJoin join) l Refused fun _ l' => ∃ p', JoinClosed join p l p' l' := by
  obtain ⟨y, hy⟩ := h.built.known h.joint
  unfold sealJoin
  rw [Ends.bind_iff, ends_edit]
  refine (Edit.ends_block hy).2 ?_
  dsimp only
  have hpreds : ∀ q, q ∈ y.preds ↔ p.Edge q join := fun q => by
    rw [← Graph.preds_of_block? hy]
    exact h.built.mem_preds
  split
  · rename_i hempty
    have hin : ∀ q, ¬ p.Edge q join := fun q he => by
      have := (hpreds q).2 he
      rw [List.isEmpty_iff.1 hempty] at this
      cases this
    rw [Ends.bind_iff, ends_edit]
    refine (Edit.ends_updateBlock hy _).2 ?_
    obtain ⟨hb, hl⟩ := h.built.kill hin hj
    have hl₁ : Leads p l (p.kill join)
        { l with bench := { l.bench with graph := l.bench.graph.withDead join } } :=
      ⟨hb, hl, rfl, rfl⟩
    refine ends_sealBlock hl₁.built h.joint h.waits fun l' roles hl' hloops => ?_
    refine ⟨_, hl₁.trans hl', hloops, rfl, fun c hc => (SameBlock.kill hc).trans (.close hc _), rfl,
      rfl, rfl, Plan.closed_close_self .., fun hd => ?_⟩
    rw [show ((p.kill join).close join roles).dead join = true from Function.update_self _ _ _] at hd
    cases hd
  · rename_i hempty
    refine ends_sealBlock h.built h.joint h.waits fun l' roles hl' hloops => ?_
    refine ⟨_, hl', hloops, rfl, fun c hc => .close hc _, rfl, rfl, rfl,
      Plan.closed_close_self .., fun hd => ⟨hd, ?_⟩⟩
    obtain ⟨q, hq⟩ := List.exists_mem_of_ne_nil _ (mt List.isEmpty_iff.2 hempty)
    exact ⟨q, (hpreds q).1 hq⟩

section Join

variable {l₁ l₂ l₃ : Lowering} {p₂ p₃ : Plan} {extra : List BlockId}

/-- The arms can be lowered once there is a block to join them. -/
theorem fork_of_good (h : Good b p l) (hl : Leads p l (p.block (p.dead b)) l₁)
    (hloops : l₁.loops = l.loops) : Fork b ⟨p.count⟩ (p.block (p.dead b)) l₁ := by
  have hne : ∀ {c : BlockId}, c.index < p.count → c ≠ ⟨p.count⟩ :=
    fun hc e => absurd hc (by rw [e]; exact Nat.lt_irrefl _)
  have hopen := fun {f} (hf : f ∈ l.loops) => (h.loops f hf).1.frame h.closed (h.loops f hf).2
    (Nat.le_succ _) (fun c hc _ => .block hc (p.dead b)) fun _ _ he => he
  have hdead : (p.block (p.dead b)).dead b = p.dead b := Plan.dead_block_of_lt h.here _
  refine ⟨hl.built, Nat.lt_succ_of_lt h.here, h.closed, Nat.lt_succ_self _,
    (h.built.bare (Nat.le_refl _)).1, (hne h.built.entry_known).symm, ?_, fun hlive => ?_,
    fun f hf => ?_⟩
  · rw [hdead]
    exact p.dead_block_self _
  · rw [hdead] at hlive
    obtain ⟨h1, h2⟩ := h.live hlive
    refine ⟨h1, fun f hf => ?_⟩
    rw [hloops] at hf
    exact (hopen hf).2.trans (h2 f hf)
  · rw [hloops] at hf
    obtain ⟨ho, hb⟩ := h.loops f hf
    exact ⟨(hopen hf).1, hb, fun hm => hne (ho.breaks _ hm).1 rfl, hne ho.known⟩

/-- Lowering goes on in the join. -/
theorem JoinClosed.good (h : JoinClosed join p l p₂ l₂) (hf : Fork b join p l)
    (hj : p.jumps join = []) : Good join p₂ l₂ := by
  have hedge : ∀ q c, p.Edge q c → p₂.Edge q c := by
    rintro q c ⟨br, hbr, ht⟩
    refine ⟨br, ?_, ht⟩
    by_cases e : q = join
    · rw [e, h.jumps, ← e]
      exact hbr
    · rw [(h.frame q e).jumps]
      exact hbr
  refine ⟨h.leads.built, by rw [h.count]; exact hf.joint, h.closed, h.jumps.trans hj,
    fun hlive => ?_, fun f hm => ?_⟩
  · obtain ⟨hd, q, hq⟩ := h.live hlive
    rw [hf.kind] at hd
    refine ⟨((hf.built.wired.source hq).1.step hq).mono hedge, fun f hm => ?_⟩
    rw [h.loops] at hm
    rw [(h.frame f.head (hf.loops f hm).2.2.2).dead]
    exact (hf.live hd).2 f hm
  · rw [h.loops] at hm
    obtain ⟨ho, -, hnot, hne⟩ := hf.loops f hm
    refine ⟨ho.mono (Nat.le_of_eq h.count.symm) ⟨(h.frame _ hne).closed, (h.frame _ hne).dead⟩
      (fun c hc => ?_) hedge, hnot⟩
    have := h.frame c fun e => hnot (e ▸ hc)
    exact ⟨this.dead, this.jumps⟩

/-- **A conditional leaves what it should of the plan before.** -/
theorem JoinClosed.spans (h : JoinClosed ⟨p.count⟩ p₂ l₂ p₃ l₃) (hg : Good b p l)
    (hl : Leads p l (p.block (p.dead b)) l₁) (hloops : l₁.loops = l.loops)
    (hf : Fork b ⟨p.count⟩ p₂ l₂) (hs : Forks b (p.block (p.dead b)) l₁ extra p₂ l₂) :
    Spans b p l extra ⟨p.count⟩ p₃ l₃ := by
  have hne : ∀ {c : BlockId}, c.index < p.count → c ≠ ⟨p.count⟩ :=
    fun hc e => absurd hc (by rw [e]; exact Nat.lt_irrefl _)
  have hb := h.frame b (hne hg.here)
  have hdead : (p.block (p.dead b)).dead b = p.dead b := Plan.dead_block_of_lt hg.here _
  refine ⟨(hl.trans hs.leads).trans h.leads, h.loops.trans (hs.loops.trans (by rw [hloops])),
    fun e => hs.outside (hloops.trans e), ?_, fun c hc hcb => ?_, hb.dead.trans (hs.dead.trans hdead),
    hb.closed.trans hs.closed, ?_, fun c h1 h2 => ?_, .inr (Nat.le_refl _), fun hlive => ?_,
    fun c hc => .inr (Nat.le_of_succ_le (hs.extra c hc).1)⟩
  · rw [h.count]
    exact Nat.le_of_succ_le hs.count
  · exact ((SameBlock.block hc _).trans (hs.frame c (Nat.lt_succ_of_lt hc) hcb)).trans
      (h.frame c (hne hc))
  · obtain ⟨new, hnew, -⟩ := hs.code
    rw [hb.code, hnew]
    exact List.prefix_append _ _
  · by_cases e : c = ⟨p.count⟩
    · rw [e]
      exact h.closed
    · rw [h.count] at h2
      rw [(h.frame c e).closed]
      refine hs.fresh c (Nat.lt_of_le_of_ne h1 fun e' => e ?_) h2
      exact BlockId.eq_of_index e'.symm
  · obtain ⟨hd, -⟩ := h.live hlive
    rwa [hf.kind, hs.dead, hdead] at hd

/-- **Control follows a conditional.** -/
theorem JoinClosed.simulates (h : JoinClosed ⟨p.count⟩ p₂ l₂ p₃ l₃) (hg : Good b p l)
    (hloops : l₁.loops = l.loops)
    (hs : Forks b (p.block (p.dead b)) l₁ extra p₂ l₂)
    (hd : Decides w step (fun _ => true) act b ⟨p.count⟩ (p.block (p.dead b)) l₁ extra p₂ l₂) :
    Simulates w step act b p l extra ⟨p.count⟩ p₃ l₃ := by
  intro vars P hP hagree n π μ hat
  have hne : ∀ {c : BlockId}, c.index < p.count → c ≠ ⟨p.count⟩ :=
    fun hc e => absurd hc (by rw [e]; exact Nat.lt_irrefl _)
  have hbc : b.index < p₃.count := by
    rw [h.count]
    exact Nat.lt_of_lt_of_le (Nat.lt_succ_of_lt hg.here) hs.count
  have hb := h.frame b (hne hg.here)
  obtain ⟨hbare, hcode, hjumps, hwrites⟩ := hg.built.bare (c := ⟨p.count⟩) (Nat.le_refl _)
  have hjoin := hs.frame ⟨p.count⟩ (Nat.lt_succ_self _) (hne hg.here).symm
  have hbx : b ∉ extra := fun hm =>
    absurd hg.here (Nat.not_lt_of_le (Nat.le_of_succ_le (hs.extra b hm).1))
  -- the conditions have been computed, and no jump is planned before them
  have hu : P.Undecided (p.block (p.dead b)) b π μ := by
    obtain ⟨new, hnew, hsilent⟩ := hs.code
    refine ⟨hat.atEnd ?_ (?_ : _ = _ ++ new) fun v hv => hP.silent ((hsilent v hv).mono
      h.leads.later.roles), fun br hbr => ?_⟩
    · rw [hagree.writes b (.inl rfl) hbc (hne hg.here), hb.writes, hs.writes]
      rfl
    · rw [hagree.code b (.inl rfl) hbc (hne hg.here), hb.code, hnew]
      rfl
    · rw [show (p.block (p.dead b)).jumps b = [] from hg.free] at hbr
      cases hbr
  have hset : Settled P.plan p₂ (p.block (p.dead b)).count b extra := by
    have hr : ∀ {c : BlockId}, (p.block (p.dead b)).count ≤ c.index → c.index < p₂.count →
        (c = b ∨ p.count ≤ c.index) ∧ c.index < p₃.count ∧ c ≠ ⟨p.count⟩ := fun h1 h2 =>
      ⟨.inr (Nat.le_of_succ_le h1), by rw [h.count]; exact h2, fun e => absurd h1 (by
        rw [e]; exact Nat.not_succ_le_self _)⟩
    refine ⟨fun c h1 h2 => ?_, fun c h1 h2 => ?_, fun c h1 h2 => ?_, fun c h1 h2 he => ?_, ?_, ?_, ?_⟩
    · obtain ⟨g1, g2, g3⟩ := hr h1 h2
      rw [hagree.code c g1 g2 g3, (h.frame c g3).code]
    · obtain ⟨g1, g2, g3⟩ := hr h1 h2
      rw [hagree.writes c g1 g2 g3, (h.frame c g3).writes]
    · obtain ⟨g1, g2, g3⟩ := hr h1 h2
      rw [hagree.dead c g1 g2, (h.frame c g3).dead]
    · obtain ⟨g1, g2, g3⟩ := hr h1 h2
      rw [hagree.jumps c g1 g2 g3 he, (h.frame c g3).jumps]
    · rw [hagree.writes b (.inl rfl) hbc (hne hg.here), hb.writes]
    · rw [hagree.dead b (.inl rfl) hbc, hb.dead]
    · rw [hagree.jumps b (.inl rfl) hbc (hne hg.here) hbx, hb.jumps]
  have hfollow := (hd vars P (hP.back h.leads) hset n hu).1 rfl
  rw [hloops] at hfollow
  refine hfollow.mono rfl (fun henter => .here (henter.at ?_ ?_)) ?_ .here
  · rw [h.code, hjoin.code]
    exact hcode
  · intro x
    rw [h.writes, hjoin.writes]
    exact hwrites x
  · rintro π' μ' ⟨c, hc, hat'⟩
    have hc' := h.frame c fun e => absurd (hs.extra c hc).1 (by rw [e]; exact Nat.not_succ_le_self _)
    exact .here ⟨c, hc, hat'.same hc'.code hc'.writes⟩

end Join

/-! ## 4. Conditionals -/

/-- **A conditional.** -/
theorem lowers_branch {ports : List Port} {arms : List (Expr × List Stmt)} {otherwise : List Stmt}
    {runArms : String → BlockId → BlockId → Lower Bool} {runOther : BlockId → Lower BlockId}
    (harms : ∀ label b join, LowersArms w vars ports T step b join arms (runArms label b join))
    (hother : Lowers w vars T step (w.execAll ports otherwise) runOther) :
    Lowers w vars T step (w.execArms ports arms (w.execAll ports otherwise)) (fun b => do
      let label ← freshLabel "if"
      let join ← newBlock (label ++ ".end") b
      let closed ← runArms label b join
      if !closed then
        arm (label ++ ".else") b join none otherwise.isEmpty runOther
      sealJoin join
      pure join) := by
  intro b p l hg hv
  rw [Ends.bind_iff]
  refine ends_freshLabel fun label k => ?_
  rw [Ends.bind_iff]
  refine ends_newBlock (l := { l with nextLabel := k }) hg.built hg.here fun l₁ hl₁ hloops₁ _ => ?_
  have hl : Leads p l (p.block (p.dead b)) l₁ := ⟨hl₁.built, hl₁.later, hl₁.vars, hl₁.limit⟩
  have hf₁ := fork_of_good hg hl hloops₁
  -- all arms are there
  have hend : ∀ {p₂ : Plan} {l₂ : Lowering} {extra : List BlockId}, Fork b ⟨p.count⟩ p₂ l₂ →
      Forks b (p.block (p.dead b)) l₁ extra p₂ l₂ →
      (T → Decides w step (fun _ => true) (w.execArms ports arms (w.execAll ports otherwise)) b
        ⟨p.count⟩ (p.block (p.dead b)) l₁ extra p₂ l₂) →
      Ends (do
        sealJoin ⟨p.count⟩
        pure (⟨p.count⟩ : BlockId)) l₂ Refused fun b' l' => ∃ p' extra, Good b' p' l' ∧
          Spans b p l extra b' p' l' ∧ (T → Simulates w step
            (w.execArms ports arms (w.execAll ports otherwise)) b p l extra b' p' l') := by
    intro p₂ l₂ extra hf hs hd
    have hj : p₂.jumps ⟨p.count⟩ = [] := by
      rw [(hs.frame _ (Nat.lt_succ_self _) hf.ne).jumps]
      exact (hg.built.bare (Nat.le_refl _)).2.2.1
    rw [Ends.bind_iff]
    refine (ends_sealJoin hf hj).mono fun _ l₃ ⟨p₃, h₃⟩ => ?_
    exact ⟨p₃, extra, h₃.good hf hj, h₃.spans hg hl hloops₁ hf hs,
      fun hT => h₃.simulates hg hloops₁ hs (hd hT)⟩
  rw [Ends.bind_iff]
  refine (harms label b ⟨p.count⟩ hf₁ (hl.vars.trans hv)).mono
    fun closed l₂ ⟨p₂, e₂, hf₂, hs₂, hd₂⟩ => ?_
  dsimp only
  cases closed with
  | true =>
    refine hend hf₂ hs₂ fun hT => ?_
    obtain ⟨hall, hdec⟩ := hd₂ hT
    refine hdec.congr (fun σ => (hall rfl σ).symm) fun n μ _ => ?_
    rw [execArms_eq, if_pos (hall rfl μ.store)]
  | false =>
    have hempty : otherwise.isEmpty = true → w.execAll ports otherwise = .skip := by
      intro he
      rw [List.isEmpty_iff.1 he, World.execAll]
    rw [if_pos (show (!false) = true from rfl), Ends.bind_iff]
    refine (ends_arm (fun _ => true) hother hempty hf₂ (hs₂.leads.vars.trans
      (hl.vars.trans hv)) (fun o ho => by cases ho) fun _ _ => gauges_none).mono
      fun _ l₃ ⟨p₃, e₃, hf₃, hs₃, hd₃⟩ => ?_
    refine hend hf₃ (hs₂.trans hf₁.here hs₃) fun hT => ?_
    refine ((hd₂ hT).2.orElse hf₁.here hs₂ hs₃ (hd₃ hT)).congr (fun σ => ?_) fun n μ _ => ?_
    · rw [Bool.or_true]
    · rw [execArms_eq]

end Lower

end BitFlow
