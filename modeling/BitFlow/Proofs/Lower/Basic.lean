import BitFlow.Proofs.Plan.Write

/-!
# Operations of a lowering

Each operation of a lowering on the graph, told on the plan: a new block, a jump, the seal of a
block, and the lowering of a condition. A jump from a dead block is left out.

Main statements: `Lower.ends_newBlock`, `Lower.ends_addEdge`, `Lower.ends_sealBlock`,
`Lower.ends_lowerCondition`.
-/

namespace BitFlow

/-! ## 1. Carrying a plan on -/

theorem BlockId.eq_of_index {a b : BlockId} (h : a.index = b.index) : a = b := by
  cases a
  cases b
  exact congrArg BlockId.mk h

/-- The declared variables of a lowering. -/
def Lowering.vars (l : Lowering) : List Variable := l.bench.reaching.vars

/-- **The lowering was carried on from one plan to another.** -/
structure Leads (p : Plan) (l : Lowering) (p' : Plan) (l' : Lowering) : Prop where
  built : Built p' l'.tracked
  later : Later p.toDraft l.tracked p'.toDraft l'.tracked
  vars : l'.vars = l.vars
  limit : l'.bench.literalLimit = l.bench.literalLimit

section Leads

variable {p p' p'' : Plan} {l l' l'' : Lowering}

theorem Leads.refl (h : Built p l.tracked) : Leads p l p l := ⟨h, .refl _ _, rfl, rfl⟩

theorem Leads.trans (h : Leads p l p' l') (h' : Leads p' l' p'' l'') : Leads p l p'' l'' :=
  ⟨h'.built, h.later.trans h'.later, h'.vars.trans h.vars, h'.limit.trans h.limit⟩

end Leads

/-- A jump, unless it would start in a dead block. -/
def Plan.jump (p : Plan) (q : BlockId) (cond : Option Operand) (c : BlockId) : Plan :=
  if p.dead q then p else p.link q cond c

namespace Lower

variable {R : Fault → Prop} {p : Plan} {l : Lowering} {α : Type}

/-! ## 2. Blocks -/

/-- A new block. -/
theorem ends_addBlock (h : Built p l.tracked) {label : String} {kind : BlockKind}
    {Q : BlockId → Lowering → Prop}
    (hQ : ∀ l', Leads p l (p.block (kind == .unreachable)) l' → l'.loops = l.loops →
      (∀ {o}, l.tracked.graph.Anchors o → l'.tracked.graph.Anchors o) → Q ⟨p.count⟩ l') :
    Ends (liftM (Edit.addBlock label kind) : Lower BlockId) l R Q := by
  rw [ends_edit]
  obtain ⟨hb, hl⟩ := h.addBlock label kind
  have hnext : l.bench.graph.nextBlock = ⟨p.count⟩ := congrArg BlockId.mk h.size
  show Q l.bench.graph.nextBlock _
  rw [hnext]
  exact hQ _ ⟨hb, hl, rfl, rfl⟩ rfl id

/-- **A new block**, dead if its parent is. -/
theorem ends_newBlock (h : Built p l.tracked) {label : String} {parent : BlockId}
    (hp : parent.index < p.count) {Q : BlockId → Lowering → Prop}
    (hQ : ∀ l', Leads p l (p.block (p.dead parent)) l' → l'.loops = l.loops →
      (∀ {o}, l.tracked.graph.Anchors o → l'.tracked.graph.Anchors o) → Q ⟨p.count⟩ l') :
    Ends (newBlock label parent) l R Q := by
  obtain ⟨y, hy⟩ := h.known hp
  have hdead := (h.block hy).1
  unfold newBlock
  rw [Ends.bind_iff, ends_edit]
  refine (Edit.ends_block hy).2 ?_
  refine ends_addBlock h ?_
  have hkind : ((if y.isUnreachable = true then BlockKind.unreachable else .live) ==
      BlockKind.unreachable) = p.dead parent := by
    rw [← hdead]
    cases y.isUnreachable <;> rfl
  rw [hkind]
  exact hQ

/-- **A jump.** -/
theorem ends_addEdge (h : Built p l.tracked) {q c : BlockId} {cond : Option Operand}
    (hq : q.index < p.count) (hc : c.index < p.count)
    (hlive : p.dead q = false → p.Reached q ∧ p.dead c = false ∧ c ≠ Plan.entry ∧
      p.closed c = false ∧ ∀ o ∈ cond, Offers p l.tracked q o)
    {Q : Unit → Lowering → Prop}
    (hQ : ∀ l', Leads p l (p.jump q cond c) l' → l'.loops = l.loops → Q () l') :
    Ends (liftM (Edit.addEdge q cond c) : Lower Unit) l R Q := by
  obtain ⟨z, hz⟩ := h.known hq
  obtain ⟨y, hy⟩ := h.known hc
  have hdead : z.isUnreachable = p.dead q := (h.block hz).1
  have hopen : y.isSealed = p.closed c := (h.block hy).2.1
  unfold Plan.jump at hQ
  rw [ends_edit]
  refine Edit.ends_addEdge hz hy (fun hu => ?_) (fun hu hs _ => ?_) fun hu _ => ?_
  · rw [hdead] at hu
    rw [if_pos hu] at hQ
    exact hQ l (.refl h) rfl
  · rw [hdead] at hu
    rw [hopen, (hlive hu).2.2.2.1] at hs
    cases hs
  · rw [hdead] at hu
    rw [if_neg (by rw [hu]; exact Bool.false_ne_true)] at hQ
    obtain ⟨h1, h2, h3, h4, h5⟩ := hlive hu
    obtain ⟨hb, hl⟩ := h.link h1 hu hc h2 h3 h4 h5
    exact hQ _ ⟨hb, hl, rfl, rfl⟩ rfl

/-- **A block is sealed.** -/
theorem ends_sealBlock (h : Built p l.tracked) {b : BlockId}
    (hb : b.index < p.count) (hopen : p.closed b = false) {Q : Unit → Lowering → Prop}
    (hQ : ∀ l' roles, Leads p l (p.close b roles) l' → l'.loops = l.loops → Q () l') :
    Ends (liftM (Track.sealBlock b) : Lower Unit) l R Q := by
  obtain ⟨y, hy⟩ := h.known hb
  rw [ends_track]
  refine (Track.ends_sealBlock h.drawn.sane hy
    ((h.block hy).2.1.trans hopen) (.inr h.grounded)).mono fun _ t ht => ?_
  obtain ⟨made, u, hst, hfill, -, rfl, hsane, hgone, -⟩ := ht
  obtain ⟨roles, hg, hb', hl⟩ := h.close hy hst hfill hsane hgone
  have hk := hst.kept (h.drawn.sane.closing b) (Nat.zero_le _)
  exact hQ _ roles ⟨hb', hl, hk.vars, rfl⟩ rfl

/-- A new sealed block that nothing reaches. -/
theorem ends_deadBlock (h : Built p l.tracked) {Q : BlockId → Lowering → Prop}
    (hQ : ∀ l' roles, Leads p l ((p.block true).close ⟨p.count⟩ roles) l' → l'.loops = l.loops →
      Q ⟨p.count⟩ l') : Ends deadBlock l R Q := by
  unfold deadBlock
  rw [Ends.bind_iff]
  refine ends_freshLabel fun label n => ?_
  rw [Ends.bind_iff]
  refine ends_addBlock (l := { l with nextLabel := n }) h fun l₁ h₁ e₁ _ => ?_
  rw [Ends.bind_iff]
  refine ends_sealBlock h₁.built (Nat.lt_succ_self _) (h.bare (Nat.le_refl _)).1
    fun l₂ roles h₂ e₂ => ?_
  exact hQ l₂ roles (Leads.trans ⟨h₁.built, h₁.later, h₁.vars, h₁.limit⟩ h₂) (e₂.trans e₁)

/-! ## 3. Conditions -/

/-- What a condition is known to be. -/
theorem ends_knownCondition {cond : Expr} {Q : Option Bool → Lowering → Prop}
    (hQ : Q ((cond.evalWithin l.bench.literalLimit).map Literal.isTrue) l) :
    Ends (liftM (Build.knownCondition cond) : Lower (Option Bool)) l R Q := hQ

/-- **A condition is lowered at the end of `b`**, before the rest. -/
theorem ends_lowerCondition (hR : Tolerates R) (w : World) (h : Built p l.tracked) {b : BlockId}
    (hb : b.index < p.count) {cond : Expr} {rest : Operand → Lower α} {Q : α → Lowering → Prop}
    (hQ : ∀ o l' p', Quiet b p { l.bench with cursor := ⟨b, none⟩ } p' l'.bench →
      l'.loops = l.loops → Offers p' l'.tracked b o →
      (∀ ty, cond.typeIn l.vars = some ty → p.Reached b →
        ∃ g, Denotes w b p' l'.bench o .bit g ∧ ∀ σ, (g σ).isTrue = (w.eval σ cond).isTrue) →
      Ends (rest o) l' R Q) :
    Ends (do
      enter b
      let c ← (liftM (Build.lowerCondition cond) : Lower Operand)
      rest c) l R Q := by
  rw [Ends.bind_iff]
  refine ends_enter ?_
  rw [Ends.bind_iff, ends_build]
  refine (Build.ends_lowerCondition (w := w) (s := { l.bench with cursor := ⟨b, none⟩ }) hR cond
    ⟨h, rfl, hb⟩).mono
    fun o s ⟨p', hq, ho, hd⟩ => ?_
  exact hQ o { l with bench := s } p' hq rfl ho hd

end Lower

end BitFlow
