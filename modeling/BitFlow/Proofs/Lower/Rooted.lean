import BitFlow.Proofs.Lower.Lineage

/-!
# Live blocks have something that leads to them

The kind of a block is set when it is made, from its parent, before any edge leads to it. The edges
follow: a new block waits for one from its parent, and the join of a conditional that has got none
in the end is declared dead. `Graph.Rooted` says that no other live block is without an edge.

Main statements: `Lower.roots_lowerStmts` -- lowering statements makes no live block that nothing
leads to; `Lower.rooted_program` -- nor does lowering a program.
-/

namespace BitFlow

namespace Graph

/-! ## 1. Footing -/

/-- Control starts at the block, or something leads there. -/
def Footed (g : Graph) (b : BlockId) : Prop := b = g.entry ∨ g.preds b ≠ []

/-- The block is dead, or it is live and has footing. -/
def Settled (g : Graph) (b : BlockId) : Prop :=
  g.kind? b = some .unreachable ∨ g.kind? b = some .live ∧ g.Footed b

/-- **Every live block has footing**, but for those that wait for it. -/
structure Rooted (waits : BlockId → Prop) (g : Graph) : Prop where
  known : g.kind? g.entry ≠ none
  footed : ∀ {b}, g.kind? b = some .live → g.Footed b ∨ waits b

/-- Two blocks of one kind. -/
def SameKind (g : Graph) (a b : BlockId) : Prop := ∃ k, g.kind? a = some k ∧ g.kind? b = some k

/-- The later graph has all blocks of the earlier one under their kinds, and whatever led to
    something still does. -/
structure Firm (g g' : Graph) : Prop where
  entry : g'.entry = g.entry
  kind : ∀ {b k}, g.kind? b = some k → g'.kind? b = some k
  preds : ∀ {b}, g.preds b ≠ [] → g'.preds b ≠ []

/-- What is dead stays dead, and what is live and has footing stays so. -/
structure Stands (g g' : Graph) : Prop where
  entry : g'.entry = g.entry
  dead : ∀ {b}, g.kind? b = some .unreachable → g'.kind? b = some .unreachable
  live : ∀ {b}, g.kind? b = some .live → g.Footed b → g'.kind? b = some .live ∧ g'.Footed b

variable {g g' g'' : Graph} {waits : BlockId → Prop} {b c : BlockId}

theorem Firm.refl (g : Graph) : g.Firm g := ⟨rfl, id, id⟩

theorem Firm.trans (h : g.Firm g') (h' : g'.Firm g'') : g.Firm g'' :=
  ⟨h'.entry.trans h.entry, fun hk => h'.kind (h.kind hk), fun hp => h'.preds (h.preds hp)⟩

theorem Firm.footed (h : g.Firm g') (hb : g.Footed b) : g'.Footed b :=
  hb.imp (fun e => e.trans h.entry.symm) h.preds

theorem Firm.stands (h : g.Firm g') : g.Stands g' :=
  ⟨h.entry, h.kind, fun hk hf => ⟨h.kind hk, h.footed hf⟩⟩

theorem Firm.sameKind (h : g.Firm g') (hk : g.SameKind b c) : g'.SameKind b c := by
  obtain ⟨k, hb, hc⟩ := hk
  exact ⟨k, h.kind hb, h.kind hc⟩

theorem Firm.of_outline (h : g'.outline = g.outline) : g.Firm g' := by
  obtain ⟨he, hk, hp⟩ : g'.entry = g.entry ∧ g'.kind? = g.kind? ∧ g'.preds = g.preds := by
    simpa [outline] using h
  exact ⟨he, fun hb => by rwa [hk], fun hb => by rwa [hp]⟩

theorem Stands.trans (h : g.Stands g') (h' : g'.Stands g'') : g.Stands g'' :=
  ⟨h'.entry.trans h.entry, fun hb => h'.dead (h.dead hb),
    fun hk hf => h'.live (h.live hk hf).1 (h.live hk hf).2⟩

theorem Stands.settled (h : g.Stands g') (hb : g.Settled b) : g'.Settled b := by
  rcases hb with hb | ⟨hk, hf⟩
  · exact .inl (h.dead hb)
  · exact .inr (h.live hk hf)

theorem Rooted.of_outline (h : g.Rooted waits) (ho : g'.outline = g.outline) : g'.Rooted waits := by
  have hback := Firm.of_outline ho.symm
  have hfirm := Firm.of_outline ho
  refine ⟨fun hn => h.known ?_, fun hk => (h.footed (hback.kind hk)).imp hfirm.footed id⟩
  cases hk : g.kind? g.entry with
  | none => rfl
  | some k =>
    have := hfirm.kind hk
    rw [← hfirm.entry, hn] at this
    cases this

/-- A block that has settled waits no more. -/
theorem Rooted.settle (h : g.Rooted fun b => waits b ∨ b = c) (hc : g.Settled c) :
    g.Rooted waits := by
  refine ⟨h.known, fun {b} hk => ?_⟩
  rcases h.footed hk with hf | hw | rfl
  · exact .inl hf
  · exact .inr hw
  · rcases hc with hd | ⟨-, hf⟩
    · rw [hk] at hd
      cases hd
    · exact .inl hf

/-- A live block with a predecessor, or a dead one, has settled. -/
theorem settled_of_preds {k : BlockKind} (hk : g.kind? b = some k) (hp : g.preds b ≠ []) :
    g.Settled b := by
  cases k with
  | live => exact .inr ⟨hk, .inr hp⟩
  | unreachable => exact .inl hk

/-! ## 2. Blocks, edges and dead blocks -/

theorem firm_pushBlock (g : Graph) (label : String) (kind : BlockKind) :
    g.Firm (g.pushBlock label kind) := by
  refine ⟨rfl, fun {b k} hk => ?_, fun {b} hp => by rwa [preds_pushBlock]⟩
  rw [kind?_pushBlock, if_neg, hk]
  rintro rfl
  rw [kind?_nextBlock] at hk
  cases hk

/-- A new block waits. -/
theorem Rooted.pushBlock (h : g.Rooted waits) (label : String) (kind : BlockKind) :
    (g.pushBlock label kind).Rooted fun b => waits b ∨ b = g.nextBlock := by
  have hfirm := g.firm_pushBlock label kind
  refine ⟨fun hn => ?_, fun {b} hk => ?_⟩
  · cases hk : g.kind? g.entry with
    | none => exact h.known hk
    | some k =>
      have hkept := hfirm.kind hk
      rw [← hfirm.entry, hn] at hkept
      cases hkept
  · rw [kind?_pushBlock] at hk
    split at hk
    · rename_i e
      exact .inr (.inr e)
    · exact (h.footed hk).imp hfirm.footed .inl

theorem firm_link {y : Block} (hc : g.block? c = some y) (q : BlockId) (cond : Option Operand) :
    g.Firm (g.link q cond c) := by
  refine ⟨g.entry_link q cond c, fun hk => by rwa [kind?_link], fun {b} hp => ?_⟩
  rw [preds_link hc]
  split
  · simp
  · exact hp

theorem preds_link_ne_nil {y : Block} (hc : g.block? c = some y) (q : BlockId)
    (cond : Option Operand) : (g.link q cond c).preds c ≠ [] :=
  List.ne_nil_of_mem ((mem_preds_link hc).2 (.inr ⟨rfl, rfl⟩))

theorem Rooted.link (h : g.Rooted waits) {y : Block} (hc : g.block? c = some y) (q : BlockId)
    (cond : Option Operand) : (g.link q cond c).Rooted waits := by
  refine ⟨?_, fun {b} hk => ?_⟩
  · rw [entry_link, kind?_link]
    exact h.known
  · rw [kind?_link] at hk
    exact (h.footed hk).imp (firm_link hc q cond).footed id

/-- A block without footing is declared dead, and waits no more. -/
theorem stands_withDead {y : Block} (hb : g.block? b = some y) (hf : ¬ g.Footed b) :
    g.Stands (g.withDead b) := by
  refine ⟨rfl, fun {c} hk => ?_, fun {c} hk hfc => ?_⟩
  · rw [kind?_withDead hb]
    split
    · rfl
    · exact hk
  · have hne : c ≠ b := fun e => hf (e ▸ hfc)
    rw [kind?_withDead hb, if_neg hne]
    refine ⟨hk, hfc.imp id fun hp => ?_⟩
    rwa [preds_withDead]

theorem Rooted.withDead {y : Block} (h : g.Rooted fun a => waits a ∨ a = b)
    (hb : g.block? b = some y) : (g.withDead b).Rooted waits := by
  refine ⟨?_, fun {c} hk => ?_⟩
  · rw [kind?_withDead hb]
    split
    · simp
    · exact h.known
  · rw [kind?_withDead hb] at hk
    split at hk
    · cases hk
    · rename_i hne
      rcases h.footed hk with hf | hw | e
      · exact .inl (hf.imp id fun hp => by rwa [preds_withDead])
      · exact .inr hw
      · exact absurd e hne

end Graph

/-! ## 3. Lowerings -/

/-- Live blocks have footing, and the blocks that leave open loops are live. -/
structure Lowering.Rooted (waits : BlockId → Prop) (l : Lowering) : Prop where
  graph : l.bench.graph.Rooted waits
  breaks : ∀ {f}, f ∈ l.loops → ∀ {q}, q ∈ f.breaks →
    l.bench.graph.kind? q = some .live ∧ l.bench.graph.Footed q

namespace Lower

variable {waits : BlockId → Prop} {l l' : Lowering} {α : Type}

/-- The lowering went on with all live blocks footed. -/
structure Carries (waits : BlockId → Prop) (l l' : Lowering) : Prop where
  rooted : l'.Rooted waits
  stands : l.bench.graph.Stands l'.bench.graph

theorem Carries.of_firm (h : l.Rooted waits) (hg : l'.bench.graph.Rooted waits)
    (hf : l.bench.graph.Firm l'.bench.graph) (hl : l'.loops = l.loops) : Carries waits l l' :=
  ⟨⟨hg, fun hm _ hq => hf.stands.live (h.breaks (hl ▸ hm) hq).1 (h.breaks (hl ▸ hm) hq).2⟩,
    hf.stands⟩

theorem Carries.trans {l'' : Lowering} (h : Carries waits l l') (h' : Carries waits l' l'') :
    Carries waits l l'' := ⟨h'.rooted, h.stands.trans h'.stands⟩

/-- **The action leads from a settled block to a settled block** and makes no live block without
    footing. -/
def Roots (x : BlockId → Lower BlockId) : Prop :=
  ∀ (waits : BlockId → Prop) (l : Lowering) (b : BlockId), l.Rooted waits →
    l.bench.graph.Settled b →
      Ends (x b) l (fun _ => True) fun b' l' => Carries waits l l' ∧ l'.bench.graph.Settled b'

theorem Roots.pure : Roots Pure.pure := fun _ _ _ h hb => ⟨⟨h, (Graph.Firm.refl _).stands⟩, hb⟩

/-- Still actions carry on. -/
theorem ends_still {x : Lower α} (hx : Still α x) (h : l.Rooted waits)
    {Q : α → Lowering → Prop}
    (hQ : ∀ a l', Carries waits l l' → l.bench.graph.Firm l'.bench.graph → Q a l') :
    Ends x l (fun _ => True) Q := by
  refine (hx l).mono fun a l' he => ?_
  obtain ⟨ho, hl⟩ : l'.bench.graph.outline = l.bench.graph.outline ∧ l'.loops = l.loops := by
    simpa [outlook] using he
  have hf := Graph.Firm.of_outline ho
  exact hQ a l' (.of_firm h (h.graph.of_outline ho) hf hl) hf

/-- A still action that ends where it started. -/
theorem roots_still {x : BlockId → Lower BlockId} (hx : ∀ b, Still BlockId (x b))
    (hsame : ∀ b l, Ends (x b) l (fun _ => True) fun b' _ => b' = b) : Roots x := by
  intro waits l b h hb
  refine Ends.imp (ends_still (Q := fun _ l' => Carries waits l l') (hx b) h fun _ _ hc _ => hc)
    fun b' l' run hc => ?_
  obtain rfl : b' = b := (hsame b l).of_ok run
  exact ⟨hc, hc.stands.settled hb⟩

theorem roots_assign (x : VarId) (ss : List Selector) (e : Expr) : Roots (assign x ss e) :=
  roots_still (compositional_still.storing.assign x ss e) (ends_assign_here x ss e)

theorem roots_portRead (p : Program) (q : PortId) (x : VarId) : Roots (portRead p q x) :=
  roots_still (compositional_still.storing.portRead p q x) (ends_portRead_here p q x)

theorem roots_portWrite (p : Program) (q : PortId) (e : Expr) : Roots (portWrite p q e) :=
  roots_still (compositional_still.storing.portWrite p q e) (ends_portWrite_here p q e)

/-! ## 4. Blocks and edges -/

/-- A new block of the kind of its parent, which waits. -/
theorem ends_waiting (h : l.Rooted waits) {label : String} {parent : BlockId}
    {Q : BlockId → Lowering → Prop}
    (hQ : ∀ c l', Carries (fun b => waits b ∨ b = c) l l' →
      l.bench.graph.Firm l'.bench.graph → c ≠ l'.bench.graph.entry →
      l'.bench.graph.SameKind parent c → Q c l') :
    Ends (newBlock label parent) l (fun _ => True) Q := by
  unfold newBlock
  rw [Ends.bind_iff, ends_edit]
  refine Edit.ends_block_or trivial fun y hy => ?_
  rw [ends_edit]
  have hkind : (if y.isUnreachable = true then BlockKind.unreachable else .live) = y.kind := by
    unfold Block.isUnreachable
    cases y.kind <;> rfl
  dsimp only
  rw [hkind]
  show Q l.bench.graph.nextBlock { l with bench :=
    { l.bench with graph := l.bench.graph.pushBlock label y.kind } }
  have hfirm := l.bench.graph.firm_pushBlock label y.kind
  refine hQ _ _ ?_ hfirm (fun e => ?_) ⟨y.kind, hfirm.kind (Graph.kind?_of_block? hy), ?_⟩
  · exact .of_firm ⟨⟨h.graph.known, fun hk => (h.graph.footed hk).imp id .inl⟩, h.breaks⟩
      (h.graph.pushBlock label y.kind) hfirm rfl
  · refine h.graph.known ?_
    rw [show l.bench.graph.entry = l.bench.graph.nextBlock from e.symm]
    exact l.bench.graph.kind?_nextBlock
  · rw [Graph.kind?_pushBlock, if_pos rfl]

/-- An edge: if its source is live, something leads to its target. -/
theorem ends_leading (h : l.Rooted waits) {q c : BlockId} {cond : Option Operand}
    {Q : Unit → Lowering → Prop}
    (hQ : ∀ l', Carries waits l l' → l.bench.graph.Firm l'.bench.graph →
      (l.bench.graph.kind? q = some .live → l'.bench.graph.preds c ≠ []) → Q () l') :
    Ends (liftM (Edit.addEdge q cond c) : Lower Unit) l (fun _ => True) Q := by
  have hstay : l.bench.graph.kind? q ≠ some .live → Q () l := fun hq =>
    hQ l ⟨h, (Graph.Firm.refl _).stands⟩ (.refl _) fun hq' => absurd hq' hq
  rw [ends_edit]
  unfold Edit.addEdge
  rw [Ends.bind_iff]
  refine Edit.ends_block_or trivial fun z hz => ?_
  split
  · rename_i hdead
    refine hstay ?_
    rw [Graph.kind?_of_block? hz, beq_iff_eq.1 hdead]
    decide
  rw [Ends.bind_iff]
  refine Edit.ends_block_or trivial fun y hy => ?_
  split
  · trivial
  · have hfirm := Graph.firm_link hy q cond
    refine hQ { l with bench := { l.bench with graph := l.bench.graph.link q cond c } } ?_ hfirm
      fun _ => Graph.preds_link_ne_nil hy q cond
    exact .of_firm h (h.graph.link hy q cond) hfirm rfl

/-- The edge that a new block waits for. -/
theorem ends_foothold {q c : BlockId} (h : l.Rooted fun b => waits b ∨ b = c)
    (hk : l.bench.graph.SameKind q c) {cond : Option Operand} {Q : Unit → Lowering → Prop}
    (hQ : ∀ l', Carries waits l l' → l.bench.graph.Firm l'.bench.graph →
      l'.bench.graph.Settled c → Q () l') :
    Ends (liftM (Edit.addEdge q cond c) : Lower Unit) l (fun _ => True) Q := by
  obtain ⟨k, hq, hc⟩ := hk
  refine ends_leading h fun l' hcar hfirm hlead => ?_
  have hset : l'.bench.graph.Settled c := by
    cases k with
    | live => exact Graph.settled_of_preds (hfirm.kind hc) (hlead hq)
    | unreachable => exact .inl (hfirm.kind hc)
  exact hQ l' ⟨⟨hcar.rooted.graph.settle hset, hcar.rooted.breaks⟩, hcar.stands⟩ hfirm hset

/-- A new block that nothing reaches. -/
theorem ends_deadEnd_rooted (h : l.Rooted waits) {label : String} {Q : BlockId → Lowering → Prop}
    (hQ : ∀ c l', Carries waits l l' → l'.bench.graph.Settled c → Q c l') :
    Ends (liftM (Edit.addBlock label .unreachable) : Lower BlockId) l (fun _ => True) Q := by
  rw [ends_edit]
  show Q l.bench.graph.nextBlock { l with bench :=
    { l.bench with graph := l.bench.graph.pushBlock label .unreachable } }
  have hset : (l.bench.graph.pushBlock label .unreachable).Settled l.bench.graph.nextBlock := by
    left
    rw [Graph.kind?_pushBlock, if_pos rfl]
  refine hQ _ _ (.of_firm h ?_ (l.bench.graph.firm_pushBlock label .unreachable) rfl) hset
  exact (h.graph.pushBlock label .unreachable).settle hset

/-! ## 5. Jumps, conditionals and loops -/

section Control

variable {advance body : BlockId → Lower BlockId}

theorem ends_deadBlock_settled (h : l.Rooted waits) :
    Ends deadBlock l (fun _ => True) fun b l' => Carries waits l l' ∧ l'.bench.graph.Settled b := by
  unfold deadBlock
  rw [Ends.bind_iff]
  refine ends_freshLabel fun label n => ?_
  rw [Ends.bind_iff]
  have hl : ({ l with nextLabel := n } : Lowering).Rooted waits := ⟨h.graph, h.breaks⟩
  refine ends_deadEnd_rooted hl fun c l₁ h₁ hc => ?_
  rw [Ends.bind_iff]
  refine ends_still (compositional_still.sealBlock c) h₁.rooted fun _ l₂ h₂ _ => ?_
  exact ⟨Carries.trans ⟨h₁.rooted, h₁.stands⟩ h₂, h₂.stands.settled hc⟩

/-- A live block with footing may be noted as one that leaves the loop. -/
theorem rooted_note {b : BlockId} {f : LoopFrame} {rest : List LoopFrame}
    (h : l.Rooted waits) (hl : l.loops = f :: rest) (hk : l.bench.graph.kind? b = some .live)
    (hf : l.bench.graph.Footed b) :
    Lowering.Rooted waits { l with loops := { f with breaks := f.breaks ++ [b] } :: rest } := by
  refine ⟨h.graph, fun {f'} hf' {q} hq => ?_⟩
  rcases List.mem_cons.1 hf' with rfl | hf'
  · rcases List.mem_append.1 hq with hq | hq
    · exact h.breaks (hl ▸ List.mem_cons_self) hq
    · rw [List.mem_singleton.1 hq]
      exact ⟨hk, hf⟩
  · exact h.breaks (hl ▸ List.mem_cons_of_mem _ hf') hq

theorem roots_breakLoop : Roots breakLoop := by
  intro waits l b h hb
  refine ends_breakLoop (fun _ => trivial) (fun _ => trivial) (fun y f rest hy hlive hl => ?_)
    fun _ _ _ _ => ends_deadBlock_settled h
  -- a live block that has settled has footing, so it may be noted
  have hk : l.bench.graph.kind? b = some .live := (Graph.live_iff hy).2 hlive
  have hf : l.bench.graph.Footed b := by
    rcases hb with hb | ⟨-, hf⟩
    · rw [hk] at hb
      cases hb
    · exact hf
  exact (ends_deadBlock_settled (rooted_note h hl hk hf)).mono fun c l' hc =>
    ⟨⟨hc.1.rooted, hc.1.stands⟩, hc.2⟩

theorem roots_continueLoop (ha : Roots advance) : Roots (continueLoop advance) := by
  intro waits l b h hb
  refine ends_continueLoop (fun _ => trivial) fun f rest _ => ?_
  refine (ha waits l b h hb).mono fun last l₁ ⟨h₁, _⟩ => ?_
  refine ends_leading h₁.rooted fun l₂ h₂ _ _ => ?_
  refine (ends_deadBlock_settled h₂.rooted).mono fun c l₃ h₃ => ?_
  exact ⟨(h₁.trans h₂).trans h₃.1, h₃.2⟩

theorem ends_arm_rooted (hbody : Roots body) (h : l.Rooted waits) {label : String}
    {b join : BlockId} {cond : Option Operand} {isEmpty : Bool} :
    Ends (arm label b join cond isEmpty body) l (fun _ => True) fun _ l' => Carries waits l l' := by
  unfold arm
  split
  · exact ends_leading h fun l₁ h₁ _ _ => h₁
  · rw [Ends.bind_iff]
    refine ends_waiting h fun first l₁ h₁ _ _ hkind => ?_
    rw [Ends.bind_iff]
    refine ends_foothold h₁.rooted hkind fun l₂ h₂ _ hfirst => ?_
    rw [Ends.bind_iff]
    refine ends_still (compositional_still.sealBlock first) h₂.rooted fun _ l₃ h₃ _ => ?_
    rw [Ends.bind_iff]
    refine (hbody waits l₃ first h₃.rooted (h₃.stands.settled hfirst)).mono
      fun last l₄ ⟨h₄, _⟩ => ?_
    refine ends_leading h₄.rooted fun l₅ h₅ _ _ => ?_
    exact ⟨h₅.rooted, h₁.stands.trans (((h₂.trans h₃).trans h₄).trans h₅).stands⟩

/-- **The join of a conditional settles.** -/
theorem ends_sealJoin_settled {join : BlockId} (h : l.Rooted fun b => waits b ∨ b = join)
    (hne : join ≠ l.bench.graph.entry) :
    Ends (sealJoin join) l (fun _ => True) fun _ l' =>
      Carries waits l l' ∧ l'.bench.graph.Settled join := by
  unfold sealJoin
  rw [Ends.bind_iff, ends_edit]
  refine Edit.ends_block_or trivial fun y hy => ?_
  have hpreds : l.bench.graph.preds join = y.preds := Graph.preds_of_block? hy
  split
  · rename_i hempty
    have hf : ¬ l.bench.graph.Footed join := by
      rintro (e | hp)
      · exact hne e
      · exact hp (hpreds.trans (List.isEmpty_iff.1 hempty))
    rw [Ends.bind_iff, ends_edit, Edit.ends_updateBlock hy]
    have hstands := Graph.stands_withDead hy hf
    have h₁ : Carries waits l
        { l with bench := { l.bench with graph := l.bench.graph.withDead join } } := by
      refine ⟨⟨h.graph.withDead hy, fun hm q hq => ?_⟩, hstands⟩
      exact hstands.live (h.breaks hm hq).1 (h.breaks hm hq).2
    have hset : (l.bench.graph.withDead join).Settled join := by
      left
      rw [Graph.kind?_withDead hy, if_pos rfl]
    refine ends_still (compositional_still.sealBlock join) h₁.rooted fun _ l₂ h₂ _ => ?_
    exact ⟨h₁.trans h₂, h₂.stands.settled hset⟩
  · rename_i hnonempty
    have hset : l.bench.graph.Settled join := by
      refine Graph.settled_of_preds (Graph.kind?_of_block? hy) fun e => hnonempty ?_
      exact List.isEmpty_iff.2 (hpreds.symm.trans e)
    have h₁ : l.Rooted waits := ⟨h.graph.settle hset, h.breaks⟩
    refine ends_still (compositional_still.sealBlock join) h₁ fun _ l₂ h₂ _ => ?_
    exact ⟨h₂, h₂.stands.settled hset⟩

/-- The edges out of a loop's condition block: the body has settled, and the block behind the loop
    if it has been made. -/
theorem ends_loopTest_settled {label : String} {cond : Expr} {known : Option Bool}
    {head first : BlockId} (h : l.Rooted fun b => waits b ∨ b = first)
    (hkind : l.bench.graph.SameKind head first) :
    Ends (loopTest label cond known head first) l (fun _ => True) fun exit? l' =>
      Carries waits l l' ∧ l'.bench.graph.Settled first ∧
        ∀ exit, exit? = some exit → l'.bench.graph.Settled exit := by
  unfold loopTest
  split
  · rw [Ends.bind_iff]
    refine ends_foothold h hkind fun l₁ h₁ _ hfirst => ?_
    exact ⟨h₁, hfirst, fun exit e => by cases e⟩
  · rw [Ends.bind_iff]
    refine ends_waiting h fun exit l₁ h₁ f₁ _ hexit => ?_
    rw [Ends.bind_iff]
    refine ends_still (compositional_still.enter head) h₁.rooted fun _ l₂ h₂ f₂ => ?_
    rw [Ends.bind_iff]
    refine ends_still (compositional_still.storing.lowerCondition cond) h₂.rooted fun c l₃ h₃ f₃ => ?_
    have hswap : l₃.Rooted fun b => (waits b ∨ b = exit) ∨ b = first :=
      ⟨⟨h₃.rooted.graph.known, fun hk => (h₃.rooted.graph.footed hk).imp id fun hw => by
        rcases hw with (hw | hw) | hw
        · exact .inl (.inl hw)
        · exact .inr hw
        · exact .inl (.inr hw)⟩, h₃.rooted.breaks⟩
    have hfirm := (f₁.trans f₂).trans f₃
    rw [Ends.bind_iff]
    refine ends_foothold hswap (hfirm.sameKind hkind) fun l₄ h₄ f₄ hfirst => ?_
    rw [Ends.bind_iff]
    refine ends_foothold h₄.rooted (((f₂.trans f₃).trans f₄).sameKind hexit)
      fun l₅ h₅ f₅ hset => ?_
    refine ⟨⟨h₅.rooted, (hfirm.trans (f₄.trans f₅)).stands⟩, f₅.stands.settled hfirst,
      fun e he => ?_⟩
    cases he
    exact hset

/-- The edges from the places that leave a loop: if there is one, something leads behind the
    loop. -/
theorem ends_joinBreaks_leading {exit : BlockId} {breaks : List BlockId} (h : l.Rooted waits)
    (hbreaks : ∀ q ∈ breaks, l.bench.graph.kind? q = some .live) :
    Ends (joinBreaks exit breaks) l (fun _ => True) fun _ l' => Carries waits l l' ∧
      l.bench.graph.Firm l'.bench.graph ∧ (breaks ≠ [] → l'.bench.graph.preds exit ≠ []) := by
  induction breaks generalizing l with
  | nil => exact ⟨⟨h, (Graph.Firm.refl _).stands⟩, .refl _, fun hne => absurd rfl hne⟩
  | cons q qs ih =>
    show Ends (liftM (Edit.addEdge q none exit) >>= fun _ => joinBreaks exit qs) l _ _
    rw [Ends.bind_iff]
    refine ends_leading h fun l₁ h₁ f₁ hlead => ?_
    refine (ih h₁.rooted fun q' hq' => f₁.kind (hbreaks q' (List.mem_cons_of_mem _ hq'))).mono
      fun _ l₂ ⟨h₂, f₂, _⟩ => ?_
    exact ⟨h₁.trans h₂, f₁.trans f₂, fun _ => f₂.preds (hlead (hbreaks q List.mem_cons_self))⟩

/-- **The block behind a loop settles.** -/
theorem ends_loopExit_settled {f : LoopFrame} {exit? : Option BlockId} (h : l.Rooted waits)
    (hbreaks : ∀ q ∈ f.breaks, l.bench.graph.kind? q = some .live)
    (hexit : ∀ exit, exit? = some exit → l.bench.graph.Settled exit) :
    Ends (loopExit f exit?) l (fun _ => True) fun exit l' =>
      Carries waits l l' ∧ l'.bench.graph.Settled exit := by
  cases exit? with
  | some exit =>
    unfold loopExit
    rw [Ends.bind_iff]
    refine (ends_joinBreaks_leading h hbreaks).mono fun _ l₁ ⟨h₁, f₁, _⟩ => ?_
    rw [Ends.bind_iff]
    refine ends_still (compositional_still.sealBlock f.head) h₁.rooted fun _ l₂ h₂ _ => ?_
    exact ⟨h₁.trans h₂, (h₁.trans h₂).stands.settled (hexit exit rfl)⟩
  | none =>
    unfold loopExit
    rw [Ends.bind_iff]
    refine ends_still (compositional_still.sealBlock f.head) h fun _ l₁ h₁ f₁ => ?_
    split
    · exact ends_deadEnd_rooted h₁.rooted fun c l₂ h₂ hc => ⟨h₁.trans h₂, hc⟩
    · rename_i hne
      rw [Ends.bind_iff]
      refine ends_waiting h₁.rooted fun exit l₂ h₂ f₂ _ hkind => ?_
      rw [Ends.bind_iff]
      refine (ends_joinBreaks_leading h₂.rooted fun q hq =>
        f₂.kind (f₁.kind (hbreaks q hq))).mono fun _ l₃ ⟨h₃, f₃, hlead⟩ => ?_
      obtain ⟨k, -, hk⟩ := hkind
      have hset : l₃.bench.graph.Settled exit :=
        Graph.settled_of_preds (f₃.kind hk) (hlead fun e => hne (by rw [e]; rfl))
      exact ⟨⟨⟨h₃.rooted.graph.settle hset, h₃.rooted.breaks⟩,
        (f₁.trans (f₂.trans f₃)).stands⟩, hset⟩

theorem roots_loop (hbody : Roots body) (ha : Roots advance) (construct : String) (cond : Expr)
    (step : List Stmt) : Roots (loop construct cond step body advance) := by
  intro waits l b h hb
  unfold loop
  rw [Ends.bind_iff]
  refine ends_still (compositional_still.knownCondition cond) h fun known l₀ h₀ f₀ => ?_
  split
  · exact ⟨h₀, h₀.stands.settled hb⟩
  rw [Ends.bind_iff]
  refine ends_freshLabel fun label n => ?_
  have hlabel : Lowering.Rooted waits { l₀ with nextLabel := n } :=
    ⟨h₀.rooted.graph, h₀.rooted.breaks⟩
  rw [Ends.bind_iff]
  refine ends_waiting hlabel fun head l₁ h₁ f₁ _ hhead => ?_
  rw [Ends.bind_iff]
  refine ends_waiting h₁.rooted fun first l₂ h₂ f₂ _ hfirst => ?_
  rw [Ends.bind_iff]
  have hswap : l₂.Rooted fun c => (waits c ∨ c = first) ∨ c = head :=
    ⟨⟨h₂.rooted.graph.known, fun hk => (h₂.rooted.graph.footed hk).imp id fun hw => by
      rcases hw with (hw | hw) | hw
      · exact .inl (.inl hw)
      · exact .inr hw
      · exact .inl (.inr hw)⟩, h₂.rooted.breaks⟩
  refine ends_foothold hswap (f₂.sameKind hhead) fun l₃ h₃ f₃ _ => ?_
  rw [Ends.bind_iff]
  refine (ends_loopTest_settled h₃.rooted (f₃.sameKind hfirst)).mono
    fun exit? l₄ ⟨h₄, hset, hexit⟩ => ?_
  rw [Ends.bind_iff]
  refine ends_still (compositional_still.sealBlock first) h₄.rooted fun _ l₅ h₅ _ => ?_
  rw [Ends.bind_iff]
  refine ends_pushLoop ?_
  rw [Ends.bind_iff]
  have h₆ : Lowering.Rooted waits { l₅ with loops := ⟨label, head, [], step⟩ :: l₅.loops } := by
    refine ⟨h₅.rooted.graph, fun {f} hf {q} hq => ?_⟩
    rcases List.mem_cons.1 hf with rfl | hf
    · cases hq
    · exact h₅.rooted.breaks hf hq
  refine (hbody waits _ first h₆ (h₅.stands.settled hset)).mono fun last l₇ ⟨h₇, hlast⟩ => ?_
  rw [Ends.bind_iff]
  refine (ha waits l₇ last h₇.rooted hlast).mono fun last l₈ ⟨h₈, _⟩ => ?_
  have hexit₈ : ∀ exit, exit? = some exit → l₈.bench.graph.Settled exit := fun exit he =>
    h₈.stands.settled (h₇.stands.settled (h₅.stands.settled (hexit exit he)))
  have hstands : l.bench.graph.Stands l₈.bench.graph :=
    ((((f₀.trans (f₁.trans (f₂.trans f₃))).stands.trans h₄.stands).trans h₅.stands).trans
      h₇.stands).trans h₈.stands
  rw [Ends.bind_iff]
  refine ends_popLoop (fun _ => trivial) fun f rest hl => ?_
  rw [Ends.bind_iff]
  have hbreaks : ∀ q ∈ f.breaks, l₈.bench.graph.kind? q = some .live := fun q hq =>
    (h₈.rooted.breaks (hl ▸ List.mem_cons_self) hq).1
  have h₉ : Lowering.Rooted waits { l₈ with loops := rest } :=
    ⟨h₈.rooted.graph, fun hf q hq => h₈.rooted.breaks (hl ▸ List.mem_cons_of_mem _ hf) hq⟩
  refine ends_leading h₉ fun l₁₀ h₁₀ f₁₀ _ => ?_
  rw [Ends.bind_iff]
  refine (ends_loopExit_settled h₁₀.rooted (fun q hq => f₁₀.kind (hbreaks q hq)) fun exit he =>
    f₁₀.stands.settled (hexit₈ exit he)).mono fun exit l₁₁ ⟨h₁₁, hset₁₁⟩ => ?_
  rw [Ends.bind_iff]
  refine ends_still (compositional_still.sealBlock exit) h₁₁.rooted fun _ l₁₂ h₁₂ _ => ?_
  exact ⟨⟨h₁₂.rooted, hstands.trans ((h₁₀.trans h₁₁).trans h₁₂).stands⟩,
    h₁₂.stands.settled hset₁₁⟩

end Control

/-! ## 6. All statements -/

mutual

/-- **A statement makes no live block without footing.** -/
theorem roots_lowerStmt (p : Program) (s : Stmt) {advance : BlockId → Lower BlockId}
    (ha : Roots advance) : Roots (lowerStmt p advance s) := by
  match s with
  | .assign x ss e =>
    intro waits l b
    rw [lowerStmt]
    exact roots_assign x ss e waits l b
  | .read q x =>
    intro waits l b
    rw [lowerStmt]
    exact roots_portRead p q x waits l b
  | .write q e =>
    intro waits l b
    rw [lowerStmt]
    exact roots_portWrite p q e waits l b
  | .branch arms otherwise =>
    intro waits l b h hb
    rw [lowerStmt, Ends.bind_iff]
    refine ends_freshLabel fun label n => ?_
    have hlabel : Lowering.Rooted waits { l with nextLabel := n } := ⟨h.graph, h.breaks⟩
    rw [Ends.bind_iff]
    refine ends_waiting hlabel fun join l₁ h₁ f₁ hne _ => ?_
    rw [Ends.bind_iff]
    refine (roots_lowerArms p arms ha h₁.rooted).mono fun closed l₂ h₂ => ?_
    have hjoin : ∀ l₃, Carries (fun c => waits c ∨ c = join) l₂ l₃ →
        Ends (do
          sealJoin join
          Pure.pure join) l₃ (fun _ => True) fun b' l' =>
            Carries waits l l' ∧ l'.bench.graph.Settled b' := by
      intro l₃ h₃
      have hstands := h₂.stands.trans h₃.stands
      rw [Ends.bind_iff]
      refine (ends_sealJoin_settled h₃.rooted (hstands.entry ▸ hne)).mono fun _ l₄ ⟨h₄, hset⟩ => ?_
      exact ⟨⟨h₄.rooted, f₁.stands.trans (hstands.trans h₄.stands)⟩, hset⟩
    dsimp only
    split
    · rw [Ends.bind_iff]
      exact (ends_arm_rooted (roots_lowerStmts p otherwise ha) h₂.rooted).mono fun _ => hjoin
    · exact hjoin l₂ ⟨h₂.rooted, (Graph.Firm.refl _).stands⟩
  | .whileLoop cond body =>
    intro waits l b
    rw [lowerStmt]
    exact roots_loop (roots_lowerStmts p body Roots.pure) Roots.pure _ _ _ waits l b
  | .forLoop init cond step body =>
    intro waits l b h hb
    rw [lowerStmt]
    have hstep := roots_lowerStmts p step Roots.pure
    rw [Ends.bind_iff]
    refine (roots_lowerStmts p init ha waits l b h hb).mono fun start l₁ ⟨h₁, hstart⟩ => ?_
    refine (roots_loop (roots_lowerStmts p body hstep) hstep _ _ _ waits l₁ start h₁.rooted
      hstart).mono fun exit l₂ ⟨h₂, hexit⟩ => ?_
    exact ⟨h₁.trans h₂, hexit⟩
  | .breakLoop =>
    intro waits l b
    rw [lowerStmt]
    exact roots_breakLoop waits l b
  | .continueLoop =>
    intro waits l b
    rw [lowerStmt]
    exact roots_continueLoop ha waits l b

/-- **Statements make no live block without footing.** -/
theorem roots_lowerStmts (p : Program) (ss : List Stmt) {advance : BlockId → Lower BlockId}
    (ha : Roots advance) : Roots (lowerStmts p advance ss) := by
  match ss with
  | [] =>
    intro waits l b
    rw [lowerStmts]
    exact Roots.pure waits l b
  | s :: ss =>
    intro waits l b h hb
    rw [lowerStmts, Ends.bind_iff]
    refine (roots_lowerStmt p s ha waits l b h hb).mono fun next l₁ ⟨h₁, hnext⟩ => ?_
    refine (roots_lowerStmts p ss ha waits l₁ next h₁.rooted hnext).mono fun b' l₂ ⟨h₂, hb'⟩ => ?_
    exact ⟨h₁.trans h₂, hb'⟩

theorem roots_lowerArms (p : Program) (arms : List (Expr × List Stmt))
    {advance : BlockId → Lower BlockId} (ha : Roots advance) {waits : BlockId → Prop}
    {l : Lowering} (h : l.Rooted waits) {label : String} {b join : BlockId} {i : Nat} :
    Ends (lowerArms p advance label b join i arms) l (fun _ => True) fun _ l' =>
      Carries waits l l' := by
  match arms with
  | [] =>
    rw [lowerArms]
    exact ⟨h, (Graph.Firm.refl _).stands⟩
  | (cond, body) :: rest =>
    rw [lowerArms, Ends.bind_iff]
    refine ends_still (compositional_still.knownCondition cond) h fun known l₁ h₁ _ => ?_
    dsimp only
    split
    · exact (roots_lowerArms p rest ha h₁.rooted).mono fun _ _ h₂ => h₁.trans h₂
    · have harm : ∀ {l : Lowering}, l.Rooted waits → ∀ test : Option Operand,
          Ends (arm (label ++ ".arm" ++ toString i) b join test body.isEmpty
            (lowerStmts p advance body)) l (fun _ => True) fun _ l' => Carries waits l l' :=
        fun hl _ => ends_arm_rooted (roots_lowerStmts p body ha) hl
      split
      · -- the arm is always taken
        rw [Ends.bind_iff, Ends.pure_iff, Ends.bind_iff]
        exact (harm h₁.rooted none).mono fun _ _ h₂ => h₁.trans h₂
      · rw [Ends.bind_iff]
        refine ends_still (compositional_still.enter b) h₁.rooted fun _ l₂ h₂ _ => ?_
        rw [Ends.bind_iff]
        refine ends_still (compositional_still.storing.lowerCondition cond) h₂.rooted fun c l₃ h₃ _ => ?_
        rw [Ends.bind_iff, Ends.pure_iff, Ends.bind_iff]
        refine (harm h₃.rooted (some c)).mono fun _ l₄ h₄ => ?_
        refine (roots_lowerArms p rest ha h₄.rooted).mono fun _ l₅ h₅ => ?_
        exact h₁.trans (h₂.trans (h₃.trans (h₄.trans h₅)))

end

/-- **A lowered program has no live block that nothing leads to**, but the entry. -/
theorem rooted_program {p : Program} {s : Settings} {b : BlockId} {l : Lowering}
    (run : (program p).run (.start p s) = .ok b l) : l.bench.graph.Rooted fun _ => False := by
  refine Ends.of_ok (R := fun _ => True) (Q := fun _ l => l.bench.graph.Rooted fun _ => False) ?_
    run
  have hstart : (Lowering.start p s).Rooted fun _ => False := by
    refine ⟨⟨Option.some_ne_none _, fun {b} hk => ?_⟩, fun hf => by cases hf⟩
    obtain ⟨_ | n⟩ := b
    · exact .inl (.inl rfl)
    · cases hk
  have hentry : (Lowering.start p s).bench.graph.Settled (Lowering.start p s).bench.graph.entry :=
    .inr ⟨rfl, .inl rfl⟩
  have hbody : ∀ l₁ : Lowering, l₁.Rooted (fun _ => False) →
      l₁.bench.graph.Settled (Lowering.start p s).bench.graph.entry →
      Ends (do
        let exit ← lowerStmts p (innermostAdvance p (← get).loops) p.body
          (Lowering.start p s).bench.graph.entry
        (Build.onGraph (modify fun g => { g with exit := some exit }) : Lower Unit)
        Pure.pure exit) l₁ (fun _ => True) fun _ l => l.bench.graph.Rooted fun _ => False := by
    intro l₁ h₁ hb
    rw [Ends.bind_iff, Ends.get_iff, Ends.bind_iff]
    have hadvance : Roots (innermostAdvance p l₁.loops) := by
      cases l₁.loops with
      | nil => exact Roots.pure
      | cons f rest => exact roots_lowerStmts p f.step Roots.pure
    refine (roots_lowerStmts p p.body hadvance _ l₁ _ h₁ hb).mono fun exit l₂ ⟨h₂, _⟩ => ?_
    exact h₂.rooted.graph.of_outline rfl
  unfold program
  rw [Ends.bind_iff, Ends.get_iff, Ends.bind_iff, ends_edit]
  refine Edit.ends_block_or trivial fun y hy => ?_
  dsimp only
  split
  · rw [Ends.bind_iff]
    exact ends_still (compositional_still.sealBlock _) hstart fun _ l₁ h₁ _ =>
      hbody l₁ h₁.rooted (h₁.stands.settled hentry)
  · exact hbody _ hstart hentry

end Lower

end BitFlow
