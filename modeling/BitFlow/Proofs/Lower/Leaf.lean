import BitFlow.Proofs.Lower.Span

/-!
# Lowering statements without control flow

Assignments and port accesses add code to the block at hand and leave everything else alone.

Main statements: `Lower.lowers_assign`, `Lower.lowers_portRead`, `Lower.lowers_portWrite`.
-/

namespace BitFlow

/-! ## 1. Changes of one block -/

section Stay

variable {b : BlockId} {p p' : Plan} {l l' : Lowering}

/-- An open loop stays open while other blocks change. -/
theorem OpenLoop.mono {f : LoopFrame} (h : OpenLoop p f) (hcount : p.count ≤ p'.count)
    (hhead : p'.closed f.head = p.closed f.head ∧ p'.dead f.head = p.dead f.head)
    (hbreaks : ∀ c ∈ f.breaks, p'.dead c = p.dead c ∧ p'.jumps c = p.jumps c)
    (hedge : ∀ q c, p.Edge q c → p'.Edge q c) : OpenLoop p' f := by
  refine ⟨Nat.lt_of_lt_of_le h.known hcount, hhead.1.trans h.waits, h.inner, fun c hc => ?_⟩
  obtain ⟨h1, h2, h3, h4, h5⟩ := h.breaks c hc
  obtain ⟨g1, g2⟩ := hbreaks c hc
  exact ⟨Nat.lt_of_lt_of_le h1 hcount, g1.trans h2, h3.mono hedge, g2.trans h4, hhead.2.trans h5⟩

/-- What changes at one sealed block alone leaves an open loop as it is. -/
theorem OpenLoop.frame {f : LoopFrame} (h : OpenLoop p f) (hclosed : p.closed b = true)
    (hb : b ∉ f.breaks) (hcount : p.count ≤ p'.count)
    (hframe : ∀ c : BlockId, c.index < p.count → c ≠ b → SameBlock p p' c)
    (hedge : ∀ q c, p.Edge q c → p'.Edge q c) : OpenLoop p' f ∧ p'.dead f.head = p.dead f.head := by
  have hne : f.head ≠ b := by
    intro e
    have := h.waits
    rw [e, hclosed] at this
    cases this
  have hsame := hframe f.head h.known hne
  refine ⟨h.mono hcount ⟨hsame.closed, hsame.dead⟩ (fun c hc => ?_) hedge, hsame.dead⟩
  have := hframe c (h.breaks c hc).1 fun e => hb (e ▸ hc)
  exact ⟨this.dead, this.jumps⟩

/-- **Lowering goes on in the block in which it was.** -/
theorem Good.stay (h : Good b p l) (hl : Leads p l p' l') (hloops : l'.loops = l.loops)
    (hcount : p'.count = p.count)
    (hframe : ∀ c : BlockId, c ≠ b → SameBlock p p' c) (hdead : p'.dead b = p.dead b)
    (hclosed : p'.closed b = p.closed b) (hjumps : p'.jumps b = p.jumps b)
    (hcode : p.code b <+: p'.code b) : Good b p' l' ∧ Spans b p l [] b p' l' := by
  have hj : ∀ c, p'.jumps c = p.jumps c := by
    intro c
    by_cases e : c = b
    · rw [e, hjumps]
    · exact (hframe c e).jumps
  have hedge : ∀ q c, p.Edge q c → p'.Edge q c := by
    rintro q c ⟨br, hbr, ht⟩
    exact ⟨br, by rw [hj]; exact hbr, ht⟩
  have hopen := fun {f} (hf : f ∈ l.loops) => (h.loops f hf).1.frame h.closed (h.loops f hf).2
    (Nat.le_of_eq hcount.symm) (fun c _ hc => hframe c hc) hedge
  refine ⟨⟨hl.built, by rw [hcount]; exact h.here, hclosed.trans h.closed, hjumps.trans h.free,
    fun hlive => ?_, fun f hf => ?_⟩, ⟨hl, ?_, fun _ => rfl, Nat.le_of_eq hcount.symm,
    fun c _ hc => hframe c hc, hdead, hclosed, hcode, fun c h1 h2 => ?_, .inl rfl, fun hlive => ?_,
    fun c hc => by cases hc⟩⟩
  · rw [hdead] at hlive
    obtain ⟨h1, h2⟩ := h.live hlive
    refine ⟨h1.mono hedge, fun f hf => ?_⟩
    rw [hloops] at hf
    exact (hopen hf).2.trans (h2 f hf)
  · rw [hloops] at hf
    exact ⟨(hopen hf).1, (h.loops f hf).2⟩
  · rw [hloops, withBreaks_nil]
  · rw [hcount] at h2
    exact absurd h2 (Nat.not_lt_of_le h1)
  · rw [← hdead]
    exact hlive

end Stay

/-! ## 2. Positions inside a block -/

section At

variable {w : World} {vars : List Variable} {P : Play w vars} {b : BlockId} {p p' : Plan}
  {l l' : Lowering} {s s' : Bench} {π : List BlockId} {μ : Memory}

/-- Quiet steps do not change the memory. -/
theorem Play.At.quiet (h : P.At p b π μ) (hq : Quiet b p s p' s') (hP : P.Completes p' l') :
    P.At p' b π μ := by
  obtain ⟨R, new, rfl, hs⟩ := hq.plan
  cases h with
  | mk path store trace =>
    refine ⟨path, store, ?_⟩
    rw [Plan.code_extend_self, P.events_append,
      P.events_of_silent fun v hv => hP.silent (hs v hv), List.append_nil]
    exact trace

/-- A write changes one variable. -/
theorem Play.At.write (h : P.At p b π μ) {x : VarId} {o : Operand} {c : Literal}
    (ho : P.meaning.mean o π = c) : P.At (p.write b x o) b π (μ.set x c) := by
  cases h with
  | mk path store trace =>
    refine ⟨path, ?_, trace⟩
    funext y
    show P.meaning.content (p.writes.set b x o) b _ y = Function.update μ.store x c y
    unfold Meaning.content Writes.set
    by_cases e : y = x
    · subst e
      rw [if_pos ⟨rfl, rfl⟩, Function.update_self]
      exact ho
    · rw [if_neg fun h => e h.2, Function.update_of_ne e, ← store]
      rfl

/-- A port access is logged. -/
theorem Play.At.port (h : P.At p b π μ) {v : ValueId} {e : Event}
    (hc : p'.code b = p.code b ++ [v]) (hw : p'.writes b = p.writes b)
    (he : P.events π [v] = [e]) : P.At p' b π (μ.log e) := by
  cases h with
  | mk path store trace =>
    refine ⟨path, ?_, ?_⟩
    · rw [show (μ.log e).store = μ.store from rfl, ← store]
      unfold Meaning.content
      rw [hw]
    · rw [hc, P.events_append, he, ← List.append_assoc, trace]
      rfl

/-- Where control is, the block is live. -/
theorem Play.At.live (h : P.At p b π μ) (hP : P.Completes p' l') {b' : BlockId} {n : Nat}
    {extra : List BlockId} (hagree : Agrees P.plan p' n b b' extra) (hb : b.index < p'.count) :
    p'.dead b = false := by
  cases h with
  | mk path store trace =>
    rw [← hagree.dead b (.inl rfl) hb]
    exact Play.live_of_path hP.live path

/-- What an operand denotes is what it holds where control is. -/
theorem Play.At.mean (h : P.At p b π μ) (hP : P.Completes p l) {o : Operand} {ty : Ty}
    {f : Store → Literal} (hd : Denotes w b p l.bench o ty f) : P.meaning.mean o π = f μ.store := by
  cases h with
  | mk path store trace => rw [hd.mean hP.models hP.runs _ path, store]

end At

namespace Lower

variable {w : World} {vars : List Variable} {T : Prop} {step : Act} {l : Lowering}
  {R : Fault → Prop}

/-! ## 3. Assignments -/

/-- A constant range is the one that the selector addresses in every store. -/
theorem ends_selectedRange (hR : Tolerates R) {s : Selector} {width : Nat} {site : String} :
    Ends (selectedRange s width site) l R fun r l' => l' = l ∧
      ∀ {vars r'}, s.rangeIn vars = some r' → r' = r ∧ ∀ σ, w.selected σ s = r := by
  have hpos : ∀ {e : Expr} {vars : List Variable} {ty : Ty} {k : Nat}, e.typeIn vars = some ty →
      e.position? = some k → ∀ σ, (w.eval σ e).bits = k := by
    intro e vars ty k ht hk σ
    obtain ⟨c, hc, rfl⟩ := position?_eq_some hk
    rw [(World.eval_evalWithin e ht hc).2]
  unfold selectedRange
  cases s with
  | bit pos =>
    dsimp only
    split
    · rename_i k hk
      rw [Ends.bind_iff, Ends.pure_iff]
      split
      · refine ⟨rfl, fun {vars r'} hr => ?_⟩
        unfold Selector.rangeIn at hr
        obtain ⟨ty, ht, hr⟩ := Option.bind_eq_some_iff.1 hr
        obtain ⟨k', hk', hr⟩ := Option.bind_eq_some_iff.1 hr
        cases hr
        cases hk.symm.trans hk'
        refine ⟨rfl, fun σ => ?_⟩
        show (⟨(w.eval σ pos).bits, (w.eval σ pos).bits⟩ : BitRange) = _
        rw [hpos ht hk]
      · exact hR rfl
    · exact hR rfl
  | range msb lsb =>
    dsimp only
    rw [Ends.bind_iff, ends_build]
    refine Build.ends_bound hR fun hi hhi => ?_
    rw [Ends.bind_iff, ends_build]
    refine Build.ends_bound hR fun lo hlo => ?_
    rw [Ends.bind_iff, Ends.pure_iff]
    split
    · refine ⟨rfl, fun {vars r'} hr => ?_⟩
      unfold Selector.rangeIn at hr
      obtain ⟨ty, ht, hr⟩ := Option.bind_eq_some_iff.1 hr
      obtain ⟨ty', ht', hr⟩ := Option.bind_eq_some_iff.1 hr
      obtain ⟨hi', hhi', hr⟩ := Option.bind_eq_some_iff.1 hr
      obtain ⟨lo', hlo', hr⟩ := Option.bind_eq_some_iff.1 hr
      cases hr
      cases hhi.symm.trans hhi'
      cases hlo.symm.trans hlo'
      refine ⟨rfl, fun σ => ?_⟩
      show (⟨(w.eval σ msb).bits, (w.eval σ lsb).bits⟩ : BitRange) = _
      rw [hpos ht hhi, hpos ht' hlo]
    · exact hR rfl

theorem ends_selectedRanges (hR : Tolerates R) {ss : List Selector} {width : Nat} {site : String} :
    Ends (selectedRanges ss width site) l R fun rs l' => l' = l ∧
      ∀ {vars rs'}, ss.mapM (Selector.rangeIn vars) = some rs' → rs' = rs ∧
        ∀ σ, ss.map (w.selected σ) = rs := by
  unfold selectedRanges
  rcases ss with - | ⟨s, - | ⟨s', ss⟩⟩
  · refine ⟨rfl, fun {vars rs'} h => ?_⟩
    cases h
    exact ⟨rfl, fun _ => rfl⟩
  · rw [Ends.bind_iff]
    refine (ends_selectedRange (w := w) hR).mono fun r l' ⟨hl, hr⟩ => ?_
    refine ⟨hl, fun {vars rs'} h => ?_⟩
    rw [List.mapM_cons] at h
    obtain ⟨r', hr', h⟩ := Option.bind_eq_some_iff.1 h
    cases h
    obtain ⟨rfl, hsel⟩ := hr hr'
    exact ⟨rfl, fun σ => congrArg (fun x => [x]) (hsel σ)⟩
  · exact hR rfl

section Write

variable {b : BlockId} {p : Plan} {roles : Roles} {new : List ValueId} {l' : Lowering}

/-- Code at the end of the block at hand. -/
theorem good_extend (h : Good b p l) (hl : Leads p l (p.extend b roles new) l')
    (hloops : l'.loops = l.loops) :
    Good b (p.extend b roles new) l' ∧ Spans b p l [] b (p.extend b roles new) l' := by
  refine h.stay hl hloops rfl (fun c hc => .extend hc _ _) rfl rfl rfl ?_
  rw [Plan.code_extend_self]
  exact List.prefix_append _ _

/-- Code at the end of the block at hand, and a write. -/
theorem good_write (h : Good b p l) {x : VarId} {a : Operand}
    (hl : Leads p l ((p.extend b roles new).write b x a) l') (hloops : l'.loops = l.loops) :
    Good b ((p.extend b roles new).write b x a) l' ∧
      Spans b p l [] b ((p.extend b roles new).write b x a) l' := by
  refine h.stay hl hloops rfl (fun c hc => (SameBlock.extend hc _ _).trans (.write hc _ _)) rfl rfl
    rfl ?_
  show p.code b <+: (p.extend b roles new).code b
  rw [Plan.code_extend_self]
  exact List.prefix_append _ _

end Write

/-- **An assignment.** -/
theorem lowers_assign {x : VarId} {ss : List Selector} {e : Expr}
    (hvars : T → ∀ {x d}, variableById? vars x = some d → d.ty.holdsLiterals = true)
    (ht : T → ∃ ty, e.typeIn vars = some ty ∧ targetType vars x ss = some ty) :
    Lowers w vars T step (fun _ μ => .done .onward (w.assign x ss e μ)) (assign x ss e) := by
  intro b p l h hv
  unfold assign
  rw [Ends.bind_iff]
  refine ends_enter ?_
  rw [Ends.bind_iff, ends_track]
  refine Track.ends_declaration (fun _ => rfl) fun d hd => ?_
  dsimp only
  by_cases harr : d.isArray = true
  · rw [if_pos harr]
    exact tolerates_refused rfl
  rw [if_neg harr, Ends.bind_iff]
  refine (ends_selectedRanges (w := w) tolerates_refused).mono fun rs l₀ ⟨hl₀, hrs⟩ => ?_
  subst hl₀
  rw [Ends.bind_iff, ends_build]
  have hready : Ready b p { l.bench with cursor := ⟨b, none⟩ } := ⟨h.built, rfl, h.here⟩
  refine (Build.ends_lowerExpr (w := w) tolerates_refused e hready).mono fun o s₁ ⟨p₁, d₁⟩ => ?_
  have h₁ := d₁.quiet.ready hready
  rw [Ends.bind_iff, ends_emit]
  refine (Build.ends_coerceTo tolerates_refused h₁ d₁.offers).mono
    fun o₂ s₂ ⟨p₂, hq₂, ho₂, hsame⟩ => ?_
  have h₂ := hq₂.ready h₁
  rw [Ends.bind_iff, Ends.discard_iff, ends_build]
  refine (Build.ends_write (w := w) tolerates_refused h₂ ?_ ho₂).mono
    fun a s₄ ⟨p₃, s₃, d', hq₃, hd', hrec, _, hden⟩ => ?_
  · rw [hq₂.jumps, d₁.quiet.jumps]
    exact h.free
  have hq := (d₁.quiet.trans hq₂).trans hq₃
  have hjoin : Leads p₃ { l with bench := s₃ } (p₃.write b x a) { l with bench := s₄ } :=
    ⟨hrec.built, hrec.later, hrec.vars, hrec.limit⟩
  have hbefore : Leads p l p₃ { l with bench := s₃ } := ⟨hq.built, hq.later, hq.vars, hq.limit⟩
  have hleads : Leads p l (p₃.write b x a) { l with bench := s₄ } := hbefore.trans hjoin
  obtain ⟨R, new, hp₃, -⟩ := hq.plan
  obtain ⟨hg, hs⟩ : Good b (p₃.write b x a) { l with bench := s₄ } ∧
      Spans b p l [] b (p₃.write b x a) { l with bench := s₄ } := by
    subst hp₃
    exact good_write h hleads rfl
  refine ⟨p₃.write b x a, [], hg, hs, fun hT vars' P hP hagree n π μ hat => ?_⟩
  -- where control is, the block can be reached, so its operands denote what they should
  have hlive := hat.live hP hagree hg.here
  rw [hs.dead] at hlive
  have hreach := (h.live hlive).1
  obtain ⟨ty, hty, htarget⟩ := ht hT
  obtain ⟨d'', hdx, htarget⟩ := Option.bind_eq_some_iff.1 htarget
  obtain ⟨rs', hmap, htarget⟩ := Option.bind_eq_some_iff.1 htarget
  cases htarget
  obtain ⟨rfl, hsel⟩ := hrs hmap
  have hvars' : l.vars = vars := hv
  have hd₀ : variableById? vars x = some d := hvars' ▸ hd
  have hd₂ : variableById? vars x = some d' := by
    rw [← hvars', ← show s₂.reaching.vars = l.vars from hq₂.vars.trans d₁.quiet.vars]
    exact hd'
  cases hd₀.symm.trans hdx
  cases hd₀.symm.trans hd₂
  have hE := d₁.denotes (show e.typeIn l.vars = some (storeType d.ty rs') by
    rw [hvars']
    exact hty) hreach
  cases hsame hE.ty
  have hA := hden _ (hq₂.reached.2 (d₁.quiet.reached.2 hreach)) (hvars hT hd₀)
    (hE.quiet d₁.quiet.built d₁.offers.anchors hq₂)
  have hP₃ := hP.back hjoin
  have hat₃ := hat.quiet hq hP₃
  refine ⟨π, .refl, ?_⟩
  have := hat₃.write (x := x) (hat₃.mean hP₃ hA)
  unfold World.assign
  rw [hsel]
  exact this

/-! ## 4. Ports -/

theorem ends_portFor (hR : Tolerates R) {prog : Program} {q : PortId} {access : Access}
    {site : String} {Q : Port → Lowering → Prop}
    (hQ : ∀ port, prog.portAt? q = some port → Q port l) :
    Ends (portFor prog q access site) l R Q := by
  unfold portFor
  split
  · exact hR rfl
  · rename_i port hport
    split
    · exact hQ port hport
    · exact hQ port hport
    · exact hR rfl

theorem portType_of {prog : Program} {q : PortId} {port : Port} (h : prog.portAt? q = some port) :
    portType prog.ports q = port.ty := by
  unfold portType
  rw [show prog.ports[q.index]? = some port from h]
  rfl

/-- **A read of a port.** -/
theorem lowers_portRead {prog : Program} {q : PortId} {x : VarId}
    (hports : T → ∀ {q port}, prog.portAt? q = some port → port.id = q)
    (ht : T → ∃ port d, prog.portAt? q = some port ∧ variableById? vars x = some d ∧
      port.ty = d.ty) :
    Lowers w vars T step (fun _ μ => .done .onward (w.readPort prog.ports q x μ))
      (portRead prog q x) := by
  intro b p l h hv
  unfold portRead
  rw [Ends.bind_iff]
  refine ends_enter ?_
  rw [Ends.bind_iff, ends_track]
  refine Track.ends_declaration (fun _ => rfl) fun d hd => ?_
  dsimp only
  rw [Ends.bind_iff]
  refine ends_portFor tolerates_refused fun port hport => ?_
  by_cases harr : d.isArray = true
  · rw [if_pos harr]
    exact tolerates_refused rfl
  rw [if_neg harr, Ends.bind_iff, ends_emit]
  have hready : Ready b p { l.bench with cursor := ⟨b, none⟩ } := ⟨h.built, rfl, h.here⟩
  unfold Emit.portRead
  rw [Build.ends_emit_bind]
  refine Build.ends_instr hready (fun o ho => (by cases ho)) fun v g hb₁ hl₁ ha₁ hv₁ => ?_
  rw [Build.ends_emit_pure, Ends.bind_iff, ends_emit]
  generalize hR₁ : p.roles.set v (.code b port.ty ⟨.assign, [], some ⟨port.id, .read⟩⟩) = R₁
    at hb₁ hl₁
  have hrole : R₁ v = some (.code b port.ty ⟨.assign, [], some ⟨port.id, .read⟩⟩) := by
    rw [← hR₁, Roles.set_self]
  have h₁ : Ready b (p.extend b R₁ [v]) { l.bench with cursor := ⟨b, none⟩, graph := g } :=
    ⟨hb₁, rfl, h.here⟩
  refine (Build.ends_coerceTo tolerates_refused h₁ ?_).mono fun o₂ s₂ ⟨p₂, hq₂, ho₂, hsame⟩ => ?_
  · rw [← hR₁]
    exact Build.offers_instr hv₁
  rw [Ends.bind_iff, Ends.discard_iff, ends_build]
  refine (Build.ends_write (w := w) tolerates_refused (hq₂.ready h₁) ?_ ho₂).mono
    fun a s₄ ⟨p₃, s₃, d', hq₃, hd', hrec, hwhole, _⟩ => ?_
  · rw [hq₂.jumps]
    exact h.free
  have hq := hq₂.trans hq₃
  have hjoin : Leads p₃ { l with bench := s₃ } (p₃.write b x a) { l with bench := s₄ } :=
    ⟨hrec.built, hrec.later, hrec.vars, hrec.limit⟩
  have hbefore : Leads p l p₃ { l with bench := s₃ } :=
    ⟨hq.built, hl₁.trans hq.later, hq.vars, hq.limit⟩
  have hleads : Leads p l (p₃.write b x a) { l with bench := s₄ } := hbefore.trans hjoin
  obtain ⟨R, new, hp₃, -⟩ := hq.plan
  obtain ⟨hg, hs⟩ : Good b (p₃.write b x a) { l with bench := s₄ } ∧
      Spans b p l [] b (p₃.write b x a) { l with bench := s₄ } := by
    rw [hp₃, Plan.extend_extend] at hleads ⊢
    exact good_write h hleads rfl
  refine ⟨p₃.write b x a, [], hg, hs, fun hT vars' P hP hagree n π μ hat => ?_⟩
  obtain ⟨port', d'', hport', hdx, hty⟩ := ht hT
  have hvars' : l.vars = vars := hv
  cases hport.symm.trans hport'
  cases (hvars' ▸ hd : variableById? vars x = some d).symm.trans hdx
  obtain rfl := hports hT hport
  -- the value that was read is what the variable gets
  cases hsame ((Roles.typeOf_value hrole _).trans hty)
  cases hwhole rfl
  have hP₃ := hP.back hjoin
  have hcode : p₃.code b = p.code b ++ v :: new := by
    rw [hp₃, Plan.code_extend_self, Plan.code_extend_self, List.append_assoc]
    rfl
  cases hat with
  | @mk π _ path store trace =>
    obtain ⟨post, hpost⟩ : ∃ post, P.plan.code b = p.code b ++ v :: post := by
      obtain ⟨rest, hrest⟩ := hagree.here
      refine ⟨new ++ rest, ?_⟩
      rw [← hrest]
      show p₃.code b ++ rest = _
      rw [hcode, List.append_assoc]
      rfl
    have hplan := hP₃.roles (hq.later.roles hrole)
    have hval := P.reads path hpost hplan rfl
    have hevent : P.events (b :: π) [v] = [.read port.id (P.meaning.val v (b :: π))] := by
      unfold Play.events Roles.events
      rw [List.flatMap_cons, Roles.event_of_code hplan]
      rfl
    have hat₁ : P.At (p.extend b R₁ [v]) b _ _ :=
      (Play.At.mk path store trace).port (Plan.code_extend_self _ _ _ _) rfl hevent
    have hat₃ := (hat₁.quiet hq hP₃).write (x := x) (o := .value v) rfl
    refine ⟨b :: π, .refl, ?_⟩
    unfold World.readPort
    rw [portType_of hport, ← trace]
    unfold Play.events
    rw [← hval]
    exact hat₃

/-- **A write to a port.** -/
theorem lowers_portWrite {prog : Program} {q : PortId} {e : Expr}
    (hports : T → ∀ {q port}, prog.portAt? q = some port → port.id = q)
    (ht : T → ∃ port, prog.portAt? q = some port ∧ e.typeIn vars = some port.ty) :
    Lowers w vars T step (fun _ μ => .done .onward (μ.log (.write q (w.eval μ.store e))))
      (portWrite prog q e) := by
  intro b p l h hv
  unfold portWrite
  rw [Ends.bind_iff]
  refine ends_enter ?_
  dsimp only
  rw [Ends.bind_iff]
  refine ends_portFor tolerates_refused fun port hport => ?_
  rw [Ends.bind_iff, ends_build]
  have hready : Ready b p { l.bench with cursor := ⟨b, none⟩ } := ⟨h.built, rfl, h.here⟩
  refine (Build.ends_lowerExpr (w := w) tolerates_refused e hready).mono fun o s₁ ⟨p₁, d₁⟩ => ?_
  have h₁ := d₁.quiet.ready hready
  rw [Ends.bind_iff, ends_emit]
  refine (Build.ends_coerceTo tolerates_refused h₁ d₁.offers).mono
    fun o₂ s₂ ⟨p₂, hq₂, ho₂, hsame⟩ => ?_
  have h₂ := hq₂.ready h₁
  rw [Ends.bind_iff, Ends.discard_iff, ends_emit]
  unfold Emit.portWrite
  rw [Build.ends_emit_bind]
  refine Build.ends_emit_operandType h₂ ho₂.anchors ?_
  refine Build.ends_instr h₂ (fun a ha => ?_) fun v g hb₃ hl₃ _ _ => ?_
  · rw [List.mem_singleton.1 ha]
    exact ho₂
  generalize hR₃ : p₂.roles.set v (.code b (p₂.roles.typeOf s₂.reaching.vars o₂)
    ⟨.assign, [o₂], some ⟨port.id, .write⟩⟩) = R₃ at hb₃ hl₃
  have hrole : R₃ v = some (.code b (p₂.roles.typeOf s₂.reaching.vars o₂)
      ⟨.assign, [o₂], some ⟨port.id, .write⟩⟩) := by
    rw [← hR₃, Roles.set_self]
  have hq := d₁.quiet.trans hq₂
  have hjoin : Leads p₂ { l with bench := s₂ } (p₂.extend b R₃ [v])
      { l with bench := { s₂ with graph := g } } := ⟨hb₃, hl₃, rfl, rfl⟩
  have hbefore : Leads p l p₂ { l with bench := s₂ } := ⟨hq.built, hq.later, hq.vars, hq.limit⟩
  have hleads : Leads p l (p₂.extend b R₃ [v]) { l with bench := { s₂ with graph := g } } :=
    hbefore.trans hjoin
  obtain ⟨R, new, hp₂, -⟩ := hq.plan
  obtain ⟨hg, hs⟩ : Good b (p₂.extend b R₃ [v]) { l with bench := { s₂ with graph := g } } ∧
      Spans b p l [] b (p₂.extend b R₃ [v]) { l with bench := { s₂ with graph := g } } := by
    rw [hp₂, Plan.extend_extend] at hleads ⊢
    exact good_extend h hleads rfl
  refine ⟨p₂.extend b R₃ [v], [], hg, hs, fun hT vars' P hP hagree n π μ hat => ?_⟩
  have hlive := hat.live hP hagree hg.here
  rw [hs.dead] at hlive
  obtain ⟨port', hport', hty⟩ := ht hT
  have hvars' : l.vars = vars := hv
  cases hport.symm.trans hport'
  obtain rfl := hports hT hport
  have hE := d₁.denotes (show e.typeIn l.vars = some port.ty by
    rw [hvars']
    exact hty) (h.live hlive).1
  cases hsame hE.ty
  have hP₂ := hP.back hjoin
  have hat₂ := hat.quiet hq hP₂
  have hmean := hat₂.mean hP₂ (hE.quiet d₁.quiet.built d₁.offers.anchors hq₂)
  refine ⟨π, .refl, ?_⟩
  refine hat₂.port (Plan.code_extend_self _ _ _ _) rfl ?_
  unfold Play.events Roles.events
  rw [List.flatMap_cons, Roles.event_of_code (hP.roles hrole), ← hmean]
  rfl

end Lower

end BitFlow
