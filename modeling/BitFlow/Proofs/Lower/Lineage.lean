import BitFlow.Proofs.Action.Outline
import BitFlow.Proofs.Action.Storing
import BitFlow.Proofs.Bench

/-!
# What comes of a block

A new block takes its kind from the block that it continues, and an edge starts at a live block
only. So whatever is made where statements are lowered at the end of a dead block is dead, no edge
is drawn, and no open loop is left from there. `Lower.Descends A` says this of any condition `A`
that holds if the block is live; it goes along the statements one after the other.

Main statement: `Lower.inherits_lowerStmts`.
-/

namespace BitFlow

/-- The block is known, and it is live only if `A` holds. -/
def Graph.Under (A : Prop) (g : Graph) (b : BlockId) : Prop :=
  ∃ k, g.kind? b = some k ∧ (k = .live → A)

/-- The block is live at most if `A` holds. -/
theorem Graph.Under.live {A : Prop} {g : Graph} {b : BlockId} (h : g.Under A b)
    (hb : g.kind? b = some .live) : A := by
  obtain ⟨k, hk, hA⟩ := h
  exact hA (Option.some.inj (hk.symm.trans hb))

/-- A block of the same kind. -/
theorem Graph.Under.congr {A : Prop} {g g' : Graph} {b c : BlockId} (h : g.Under A b)
    (hk : g'.kind? c = g.kind? b) : g'.Under A c := by
  obtain ⟨k, hb, hA⟩ := h
  exact ⟨k, hk.trans hb, hA⟩

namespace Lower

/-! ## 1. Lowerings under a condition -/

/-- **What has been done under `A`**: known blocks have kept their kinds; new live blocks, new edges
    and new ways out of open loops are there only if `A` holds. -/
structure Descends (A : Prop) (l l' : Lowering) : Prop where
  kind : ∀ {c k}, l.bench.graph.kind? c = some k → l'.bench.graph.kind? c = some k
  fresh : ∀ {c}, l.bench.graph.kind? c = none → l'.bench.graph.kind? c = some .live → A
  preds : l'.bench.graph.preds = l.bench.graph.preds ∨ A
  heads : l'.loops.map LoopFrame.head = l.loops.map LoopFrame.head
  loops : l'.loops = l.loops ∨ A

namespace Descends

variable {A B : Prop} {l l' l'' : Lowering} {b c : BlockId}

theorem of_outlook (h : outlook l' = outlook l) : Descends A l l' := by
  obtain ⟨⟨-, hk, hp⟩, hl⟩ : (l'.bench.graph.entry = l.bench.graph.entry ∧
      l'.bench.graph.kind? = l.bench.graph.kind? ∧ l'.bench.graph.preds = l.bench.graph.preds) ∧
        l'.loops = l.loops := by
    simpa [outlook, Graph.outline] using h
  refine ⟨fun hc => hk ▸ hc, fun hc hc' => ?_, .inl hp, by rw [hl], .inl hl⟩
  rw [hk, hc] at hc'
  cases hc'

theorem refl (l : Lowering) : Descends A l l := .of_outlook rfl

theorem trans (h : Descends A l l') (h' : Descends A l' l'') : Descends A l l'' where
  kind := fun hk => h'.kind (h.kind hk)
  fresh := fun {c} hn hc => by
    cases hk : l'.bench.graph.kind? c with
    | none => exact h'.fresh hk hc
    | some k =>
      rw [h'.kind hk] at hc
      cases hc
      exact h.fresh hn hk
  preds := by
    rcases h'.preds with hp' | hA
    · exact h.preds.imp hp'.trans id
    · exact .inr hA
  heads := h'.heads.trans h.heads
  loops := by
    rcases h'.loops with hl' | hA
    · exact h.loops.imp hl'.trans id
    · exact .inr hA

theorem under (h : Descends A l l') (hb : l.bench.graph.Under B b) :
    l'.bench.graph.Under B b := by
  obtain ⟨k, hk, hB⟩ := hb
  exact ⟨k, h.kind hk, hB⟩

/-- The innermost loop, which was opened on the way, is closed. -/
theorem close {frame f : LoopFrame} {rest : List LoopFrame}
    (h : Descends A { l with loops := frame :: l.loops } l') (hl : l'.loops = f :: rest) :
    Descends A l { l' with loops := rest } ∧ f.head = frame.head ∧ (f = frame ∨ A) := by
  have hheads := h.heads
  have hloops := h.loops
  rw [hl] at hheads hloops
  obtain ⟨hhead, hrest⟩ := List.cons.inj hheads
  refine ⟨⟨h.kind, h.fresh, h.preds, hrest, hloops.imp (fun e => (List.cons.inj e).2) id⟩, hhead, ?_⟩
  exact hloops.imp (fun e => (List.cons.inj e).1) id

/-- A block that was made on the way is declared dead. -/
theorem withDead (h : Descends A l l') (hc : l.bench.graph.kind? c = none) :
    Descends A l
      { l' with bench := { l'.bench with graph := l'.bench.graph.withDead c } } where
  kind := fun {a k} hk => by
    have hne : a ≠ c := by
      rintro rfl
      rw [hc] at hk
      cases hk
    exact (l'.bench.graph.kind?_withDead_of_ne hne).trans (h.kind hk)
  fresh := fun {a} hn ha => by
    by_cases e : a = c
    · subst e
      refine h.fresh hn ?_
      unfold Graph.kind? at ha ⊢
      rw [show Graph.block? _ a = _ from Graph.block?_withDead _ _ _] at ha
      cases hy : l'.bench.graph.block? a with
      | none =>
        rw [hy] at ha
        cases ha
      | some y =>
        rw [hy] at ha
        simp at ha
    · exact h.fresh hn ((l'.bench.graph.kind?_withDead_of_ne e).symm.trans ha)
  preds := by
    refine h.preds.imp (fun hp => ?_) id
    funext a
    exact (l'.bench.graph.preds_withDead c a).trans (congrFun hp a)
  heads := h.heads
  loops := h.loops

end Descends

/-- **The action hands on whether it is live**: what it does is done under every condition that
    holds if it starts at a live block, and so is the block in which it ends. -/
def Inherits (x : BlockId → Lower BlockId) : Prop :=
  ∀ (A : Prop) (l : Lowering) (b : BlockId), l.bench.graph.Under A b →
    Ends (x b) l (fun _ => True) fun b' l' => Descends A l l' ∧ l'.bench.graph.Under A b'

theorem Inherits.pure : Inherits Pure.pure := fun _ l _ hb => ⟨.refl l, hb⟩

variable {A : Prop} {l : Lowering} {α : Type}

theorem descends_still {x : Lower α} (hx : Still α x) :
    Ends x l (fun _ => True) fun _ l' => Descends A l l' :=
  (hx l).mono fun _ _ h => .of_outlook h

/-- A still action that ends where it started. -/
theorem inherits_still {x : BlockId → Lower BlockId} (hx : ∀ b, Still BlockId (x b))
    (hsame : ∀ b l, Ends (x b) l (fun _ => True) fun b' _ => b' = b) : Inherits x := by
  intro A l b hb
  refine (descends_still (A := A) (hx b)).imp fun b' l' run h => ?_
  obtain rfl : b' = b := (hsame b l).of_ok run
  exact ⟨h, h.under hb⟩

/-! ## 2. Blocks and edges -/

/-- A new block of a kind that `A` admits. -/
theorem descends_pushBlock {kind : BlockKind} (hA : kind = .live → A) (label : String) :
    Descends A l
      { l with bench := { l.bench with graph := l.bench.graph.pushBlock label kind } } where
  kind := fun {c k} hk => by
    rw [show Graph.kind? _ c = _ from l.bench.graph.kind?_pushBlock label kind c, if_neg, hk]
    rintro rfl
    rw [Graph.kind?_nextBlock] at hk
    cases hk
  fresh := fun {c} hn hc => by
    rw [show Graph.kind? _ c = _ from l.bench.graph.kind?_pushBlock label kind c] at hc
    split at hc
    · exact hA (Option.some.inj hc)
    · rw [hn] at hc
      cases hc
  preds := .inl (funext fun c => l.bench.graph.preds_pushBlock label kind c)
  heads := rfl
  loops := .inl rfl

/-- A new block under another one: it was not there before, and it is of the same kind. -/
theorem descends_newBlock {parent : BlockId} (hb : l.bench.graph.Under A parent) (label : String) :
    Ends (newBlock label parent) l (fun _ => True) fun c l' =>
      Descends A l l' ∧ l.bench.graph.kind? c = none ∧
        l'.bench.graph.kind? c = l.bench.graph.kind? parent := by
  unfold newBlock
  rw [Ends.bind_iff, ends_edit]
  refine Edit.ends_block_or trivial fun y hy => ?_
  have hk := Graph.kind?_of_block? hy
  have hkind : (if y.isUnreachable = true then BlockKind.unreachable else .live) = y.kind := by
    unfold Block.isUnreachable
    cases y.kind <;> rfl
  rw [ends_edit]
  dsimp only
  rw [hkind]
  refine ⟨descends_pushBlock (fun e => hb.live (hk.trans (congrArg some e))) label,
    l.bench.graph.kind?_nextBlock, ?_⟩
  rw [hk]
  exact (l.bench.graph.kind?_pushBlock label y.kind _).trans (if_pos rfl)

theorem descends_deadEnd (label : String) :
    Ends (liftM (Edit.addBlock label .unreachable) : Lower BlockId) l (fun _ => True) fun c l' =>
      Descends A l l' ∧ l'.bench.graph.Under A c := by
  rw [ends_edit]
  refine ⟨descends_pushBlock (fun e => by cases e) label, .unreachable, ?_, fun e => by cases e⟩
  exact (l.bench.graph.kind?_pushBlock label .unreachable _).trans (if_pos rfl)

/-- An edge, which is drawn at most if `A` holds. -/
theorem descends_addEdge {q : BlockId} (hq : l.bench.graph.kind? q = some .live → A)
    (cond : Option Operand) (c : BlockId) :
    Ends (liftM (Edit.addEdge q cond c) : Lower Unit) l (fun _ => True) fun _ l' =>
      Descends A l l' := by
  rw [ends_edit]
  unfold Edit.addEdge
  rw [Ends.bind_iff]
  refine Edit.ends_block_or trivial fun z hz => ?_
  split
  · exact .refl l
  rename_i hlive
  have hA : A := hq ((Graph.live_iff hz).2 (by simpa using hlive))
  rw [Ends.bind_iff]
  refine Edit.ends_block_or trivial fun y hy => ?_
  split
  · trivial
  have hkind := l.bench.graph.kind?_link q cond c
  exact ⟨fun {a k} hk => (hkind a).trans hk, fun _ _ => hA, .inr hA, rfl, .inl rfl⟩

/-! ## 3. Jumps, conditionals and loops -/

section Control

variable {advance body : BlockId → Lower BlockId} {b : BlockId}

theorem descends_deadBlock : Ends deadBlock l (fun _ => True) fun c l' =>
    Descends A l l' ∧ l'.bench.graph.Under A c := by
  unfold deadBlock
  rw [Ends.bind_iff]
  refine ends_freshLabel fun label n => ?_
  rw [Ends.bind_iff]
  refine (descends_deadEnd (A := A) label).mono fun c l₁ ⟨h₁, hc⟩ => ?_
  rw [Ends.bind_iff]
  refine (descends_still (A := A) (compositional_still.sealBlock c)).mono fun _ l₂ h₂ => ?_
  exact ⟨.trans ⟨h₁.kind, h₁.fresh, h₁.preds, h₁.heads, h₁.loops⟩ h₂, h₂.under hc⟩

theorem inherits_breakLoop : Inherits breakLoop := by
  intro A l b hb
  refine ends_breakLoop (fun _ => trivial) (fun _ => trivial) (fun y f rest hy hlive hl => ?_)
    fun _ _ _ _ => descends_deadBlock
  have hA : A := hb.live ((Graph.live_iff hy).2 hlive)
  have hnoted : Descends A l { l with loops := { f with breaks := f.breaks ++ [b] } :: rest } :=
    ⟨id, fun _ _ => hA, .inl rfl, by rw [hl]; rfl, .inr hA⟩
  exact descends_deadBlock.mono fun c l₂ ⟨h₂, hc⟩ => ⟨hnoted.trans h₂, hc⟩

theorem inherits_continueLoop (ha : Inherits advance) : Inherits (continueLoop advance) := by
  intro A l b hb
  refine ends_continueLoop (fun _ => trivial) fun f rest _ => ?_
  refine (ha A l b hb).mono fun last l₁ ⟨h₁, hlast⟩ => ?_
  refine (descends_addEdge hlast.live none _).mono fun _ l₂ h₂ => ?_
  exact descends_deadBlock.mono fun c l₃ ⟨h₃, hc⟩ => ⟨(h₁.trans h₂).trans h₃, hc⟩

theorem descends_arm (hbody : Inherits body) (hb : l.bench.graph.Under A b) (label : String)
    (join : BlockId) (cond : Option Operand) (isEmpty : Bool) :
    Ends (arm label b join cond isEmpty body) l (fun _ => True) fun _ l' => Descends A l l' := by
  unfold arm
  split
  · exact descends_addEdge hb.live cond join
  · rw [Ends.bind_iff]
    refine (descends_newBlock hb label).mono fun first l₁ ⟨h₁, _, hkind⟩ => ?_
    have hfirst : l₁.bench.graph.Under A first := hb.congr hkind
    rw [Ends.bind_iff]
    refine (descends_addEdge (h₁.under hb).live cond first).mono fun _ l₂ h₂ => ?_
    rw [Ends.bind_iff]
    refine (descends_still (A := A) (compositional_still.sealBlock first)).mono fun _ l₃ h₃ => ?_
    rw [Ends.bind_iff]
    refine (hbody A l₃ first (h₃.under (h₂.under hfirst))).mono fun last l₄ ⟨h₄, hlast⟩ => ?_
    refine (descends_addEdge hlast.live none join).mono fun _ l₅ h₅ => ?_
    exact (((h₁.trans h₂).trans h₃).trans h₄).trans h₅

/-- The join of a conditional, which was made on the way from `l₀`, is closed. -/
theorem descends_sealJoin {l₀ : Lowering} {join : BlockId} (h : Descends A l₀ l)
    (hnew : l₀.bench.graph.kind? join = none) (hjoin : l.bench.graph.Under A join) :
    Ends (sealJoin join) l (fun _ => True) fun _ l' =>
      Descends A l₀ l' ∧ l'.bench.graph.Under A join := by
  unfold sealJoin
  rw [Ends.bind_iff, ends_edit]
  refine Edit.ends_block_or trivial fun y hy => ?_
  split
  · rw [Ends.bind_iff, ends_edit, Edit.ends_updateBlock hy]
    refine (descends_still (A := A) (compositional_still.sealBlock join)).mono fun _ l₁ h₁ => ?_
    refine ⟨(h.withDead hnew).trans h₁, h₁.under ⟨.unreachable, ?_, fun e => by cases e⟩⟩
    exact (Graph.kind?_withDead hy join).trans (if_pos rfl)
  · refine (descends_still (A := A) (compositional_still.sealBlock join)).mono fun _ l₁ h₁ => ?_
    exact ⟨h.trans h₁, h₁.under hjoin⟩

theorem descends_loopTest {head : BlockId} (hhead : l.bench.graph.Under A head) (label : String)
    (cond : Expr) (known : Option Bool) (first : BlockId) :
    Ends (loopTest label cond known head first) l (fun _ => True) fun exit? l' =>
      Descends A l l' ∧ ∀ exit, exit? = some exit → l'.bench.graph.Under A exit := by
  unfold loopTest
  split
  · rw [Ends.bind_iff]
    refine (descends_addEdge hhead.live none first).mono fun _ l₁ h₁ => ?_
    exact ⟨h₁, fun exit e => by cases e⟩
  · rw [Ends.bind_iff]
    refine (descends_newBlock hhead _).mono fun exit l₁ ⟨h₁, _, hkind⟩ => ?_
    have hexit : l₁.bench.graph.Under A exit := hhead.congr hkind
    rw [Ends.bind_iff]
    refine (descends_still (A := A) (compositional_still.enter head)).mono fun _ l₂ h₂ => ?_
    rw [Ends.bind_iff]
    refine (descends_still (A := A) (compositional_still.storing.lowerCondition cond)).mono
      fun c l₃ h₃ => ?_
    have h₁₃ := (h₁.trans h₂).trans h₃
    rw [Ends.bind_iff]
    refine (descends_addEdge (h₁₃.under hhead).live (some c) first).mono fun _ l₄ h₄ => ?_
    rw [Ends.bind_iff]
    refine (descends_addEdge ((h₁₃.trans h₄).under hhead).live none exit).mono fun _ l₅ h₅ => ?_
    refine ⟨(h₁₃.trans h₄).trans h₅, fun e he => ?_⟩
    cases he
    exact (((h₂.trans h₃).trans h₄).trans h₅).under hexit

theorem descends_joinBreaks {breaks : List BlockId} (hA : breaks = [] ∨ A) (exit : BlockId) :
    Ends (joinBreaks exit breaks) l (fun _ => True) fun _ l' => Descends A l l' := by
  unfold joinBreaks
  rcases hA with rfl | hA
  · exact .refl l
  · refine Ends.forM (fun _ l' => Descends A l l') breaks (.refl l) fun _ q _ l₁ _ h₁ => ?_
    exact (descends_addEdge (fun _ => hA) none exit).mono fun _ _ h₂ => h₁.trans h₂

theorem descends_loopExit {f : LoopFrame} {exit? : Option BlockId} (hA : f.breaks = [] ∨ A)
    (hhead : l.bench.graph.Under A f.head)
    (hexit : ∀ exit, exit? = some exit → l.bench.graph.Under A exit) :
    Ends (loopExit f exit?) l (fun _ => True) fun exit l' =>
      Descends A l l' ∧ l'.bench.graph.Under A exit := by
  cases exit? with
  | some exit =>
    unfold loopExit
    rw [Ends.bind_iff]
    refine (descends_joinBreaks hA exit).mono fun _ l₁ h₁ => ?_
    rw [Ends.bind_iff]
    refine (descends_still (A := A) (compositional_still.sealBlock f.head)).mono fun _ l₂ h₂ => ?_
    exact ⟨h₁.trans h₂, (h₁.trans h₂).under (hexit exit rfl)⟩
  | none =>
    unfold loopExit
    rw [Ends.bind_iff]
    refine (descends_still (A := A) (compositional_still.sealBlock f.head)).mono fun _ l₁ h₁ => ?_
    split
    · exact (descends_deadEnd _).mono fun exit l₂ ⟨h₂, hexit⟩ => ⟨h₁.trans h₂, hexit⟩
    · rw [Ends.bind_iff]
      refine (descends_newBlock (h₁.under hhead) _).mono fun exit l₂ ⟨h₂, _, hkind⟩ => ?_
      have hexit : l₂.bench.graph.Under A exit := (h₁.under hhead).congr hkind
      rw [Ends.bind_iff]
      refine (descends_joinBreaks hA exit).mono fun _ l₃ h₃ => ?_
      exact ⟨(h₁.trans h₂).trans h₃, h₃.under hexit⟩

theorem inherits_loop (hbody : Inherits body) (ha : Inherits advance) (construct : String)
    (cond : Expr) (step : List Stmt) : Inherits (loop construct cond step body advance) := by
  intro A l b hb
  unfold loop
  rw [Ends.bind_iff]
  refine (descends_still (A := A) (compositional_still.knownCondition cond)).mono
    fun known l₀ h₀ => ?_
  split
  · exact ⟨h₀, h₀.under hb⟩
  rw [Ends.bind_iff]
  refine ends_freshLabel fun label n => ?_
  rw [Ends.bind_iff]
  refine (descends_newBlock (l := { l₀ with nextLabel := n }) (h₀.under hb) _).mono
    fun head l₁ ⟨h₁, _, hkind₁⟩ => ?_
  have h₀₁ : Descends A l l₁ := h₀.trans ⟨h₁.kind, h₁.fresh, h₁.preds, h₁.heads, h₁.loops⟩
  have hhead : l₁.bench.graph.Under A head := (h₀.under hb).congr hkind₁
  rw [Ends.bind_iff]
  refine (descends_newBlock hhead _).mono fun first l₂ ⟨h₂, _, hkind₂⟩ => ?_
  have hfirst : l₂.bench.graph.Under A first := hhead.congr hkind₂
  rw [Ends.bind_iff]
  refine (descends_addEdge ((h₀₁.trans h₂).under hb).live none head).mono fun _ l₃ h₃ => ?_
  rw [Ends.bind_iff]
  refine (descends_loopTest ((h₂.trans h₃).under hhead) label cond known first).mono
    fun exit? l₄ ⟨h₄, hexit⟩ => ?_
  rw [Ends.bind_iff]
  refine (descends_still (A := A) (compositional_still.sealBlock first)).mono fun _ l₅ h₅ => ?_
  have h₂₅ := (h₃.trans h₄).trans h₅
  rw [Ends.bind_iff]
  refine ends_pushLoop ?_
  rw [Ends.bind_iff]
  let inside : Lowering := { l₅ with loops := ⟨label, head, [], step⟩ :: l₅.loops }
  refine (hbody A inside first (h₂₅.under hfirst)).mono fun last l₆ ⟨h₆, hlast⟩ => ?_
  rw [Ends.bind_iff]
  refine (ha A l₆ last hlast).mono fun last l₇ ⟨h₇, hlast⟩ => ?_
  have hinside := h₆.trans h₇
  rw [Ends.bind_iff]
  refine ends_popLoop (fun _ => trivial) fun f rest hl => ?_
  obtain ⟨h₅₇, hf, hbreaks⟩ := hinside.close hl
  rw [Ends.bind_iff]
  refine (descends_addEdge (l := { l₇ with loops := rest }) hlast.live none head).mono
    fun _ l₈ h₈ => ?_
  have h₅₈ := h₅₇.trans h₈
  have hbare : f.breaks = [] ∨ A := hbreaks.imp (fun e => by rw [e]) id
  rw [Ends.bind_iff]
  refine (descends_loopExit hbare (hf ▸ ((h₂.trans h₂₅).trans h₅₈).under hhead) fun exit he =>
    (h₅.trans h₅₈).under (hexit exit he)).mono fun exit l₉ ⟨h₉, hexit₉⟩ => ?_
  rw [Ends.bind_iff]
  refine (descends_still (A := A) (compositional_still.sealBlock exit)).mono fun _ l₁₀ h₁₀ => ?_
  exact ⟨(((h₀₁.trans h₂).trans h₂₅).trans h₅₈).trans (h₉.trans h₁₀), h₁₀.under hexit₉⟩

end Control

/-! ## 4. All statements -/

/-- Statements without control flow end in the block where they started. -/
theorem ends_assign_here (x : VarId) (ss : List Selector) (e : Expr) (b : BlockId) (l : Lowering) :
    Ends (assign x ss e b) l (fun _ => True) fun b' _ => b' = b := by
  refine .skip fun _ l => .skip fun d l => ?_
  dsimp only
  split
  · trivial
  · exact .skip fun _ l => .skip fun _ l => .skip fun _ l => .skip fun _ l => rfl

theorem ends_portRead_here (p : Program) (q : PortId) (x : VarId) (b : BlockId) (l : Lowering) :
    Ends (portRead p q x b) l (fun _ => True) fun b' _ => b' = b := by
  refine .skip fun _ l => .skip fun d l => .skip fun port l => ?_
  dsimp only
  split
  · trivial
  · exact .skip fun _ l => .skip fun _ l => .skip fun _ l => rfl

theorem ends_portWrite_here (p : Program) (q : PortId) (e : Expr) (b : BlockId) (l : Lowering) :
    Ends (portWrite p q e b) l (fun _ => True) fun b' _ => b' = b :=
  .skip fun _ _ => .skip fun _ _ => .skip fun _ _ => .skip fun _ _ => .skip fun _ _ => rfl

mutual

/-- **What comes of a statement is live only if it starts at a live block.** -/
theorem inherits_lowerStmt (p : Program) (s : Stmt) {advance : BlockId → Lower BlockId}
    (ha : Inherits advance) : Inherits (lowerStmt p advance s) := by
  match s with
  | .assign x ss e =>
    intro A l b
    rw [lowerStmt]
    exact inherits_still (compositional_still.storing.assign x ss e) (ends_assign_here x ss e) A l b
  | .read q x =>
    intro A l b
    rw [lowerStmt]
    exact inherits_still (compositional_still.storing.portRead p q x) (ends_portRead_here p q x) A l b
  | .write q e =>
    intro A l b
    rw [lowerStmt]
    exact inherits_still (compositional_still.storing.portWrite p q e) (ends_portWrite_here p q e) A l b
  | .branch arms otherwise =>
    intro A l b hb
    rw [lowerStmt, Ends.bind_iff]
    refine ends_freshLabel fun label n => ?_
    rw [Ends.bind_iff]
    refine (descends_newBlock (l := { l with nextLabel := n }) hb _).mono
      fun join l₁ ⟨h₁, hnew, hkind⟩ => ?_
    have h₀₁ : Descends A l l₁ := ⟨h₁.kind, h₁.fresh, h₁.preds, h₁.heads, h₁.loops⟩
    have hjoin : l₁.bench.graph.Under A join := hb.congr hkind
    rw [Ends.bind_iff]
    refine (inherits_lowerArms p arms ha (h₀₁.under hb) label join 0).mono fun closed l₂ h₂ => ?_
    have hend : ∀ l₃, Descends A l₂ l₃ →
        Ends (do
          sealJoin join
          Pure.pure join) l₃ (fun _ => True) fun b' l' =>
            Descends A l l' ∧ l'.bench.graph.Under A b' := by
      intro l₃ h₃
      have h₁₃ := h₂.trans h₃
      rw [Ends.bind_iff]
      exact descends_sealJoin (h₀₁.trans h₁₃) hnew (h₁₃.under hjoin)
    dsimp only
    split
    · rw [Ends.bind_iff]
      exact (descends_arm (inherits_lowerStmts p otherwise ha) ((h₀₁.trans h₂).under hb) _ join none
        _).mono fun _ => hend
    · exact hend l₂ (.refl l₂)
  | .whileLoop cond body =>
    intro A l b
    rw [lowerStmt]
    exact inherits_loop (inherits_lowerStmts p body .pure) .pure _ _ _ A l b
  | .forLoop init cond step body =>
    intro A l b hb
    rw [lowerStmt]
    have hstep := inherits_lowerStmts p step .pure
    rw [Ends.bind_iff]
    refine (inherits_lowerStmts p init ha A l b hb).mono fun start l₁ ⟨h₁, hstart⟩ => ?_
    refine (inherits_loop (inherits_lowerStmts p body hstep) hstep _ _ _ A l₁ start hstart).mono
      fun exit l₂ ⟨h₂, hexit⟩ => ?_
    exact ⟨h₁.trans h₂, hexit⟩
  | .breakLoop =>
    intro A l b
    rw [lowerStmt]
    exact inherits_breakLoop A l b
  | .continueLoop =>
    intro A l b
    rw [lowerStmt]
    exact inherits_continueLoop ha A l b

/-- **What comes of statements is live only if they start at a live block.** -/
theorem inherits_lowerStmts (p : Program) (ss : List Stmt) {advance : BlockId → Lower BlockId}
    (ha : Inherits advance) : Inherits (lowerStmts p advance ss) := by
  match ss with
  | [] =>
    intro A l b
    rw [lowerStmts]
    exact Inherits.pure A l b
  | s :: ss =>
    intro A l b hb
    rw [lowerStmts, Ends.bind_iff]
    refine (inherits_lowerStmt p s ha A l b hb).mono fun next l₁ ⟨h₁, hnext⟩ => ?_
    refine (inherits_lowerStmts p ss ha A l₁ next hnext).mono fun b' l₂ ⟨h₂, hb'⟩ => ?_
    exact ⟨h₁.trans h₂, hb'⟩

theorem inherits_lowerArms (p : Program) (arms : List (Expr × List Stmt))
    {advance : BlockId → Lower BlockId} (ha : Inherits advance) {A : Prop} {l : Lowering}
    {b : BlockId} (hb : l.bench.graph.Under A b) (label : String) (join : BlockId) (i : Nat) :
    Ends (lowerArms p advance label b join i arms) l (fun _ => True) fun _ l' =>
      Descends A l l' := by
  match arms with
  | [] =>
    rw [lowerArms]
    exact .refl l
  | (cond, body) :: rest =>
    rw [lowerArms, Ends.bind_iff]
    refine (descends_still (A := A) (compositional_still.knownCondition cond)).mono
      fun known l₁ h₁ => ?_
    have hb₁ := h₁.under hb
    dsimp only
    split
    · exact (inherits_lowerArms p rest ha hb₁ label join (i + 1)).mono fun _ _ h₂ => h₁.trans h₂
    · have hbody := inherits_lowerStmts p body ha
      split
      · -- the arm is always taken
        rw [Ends.bind_iff, Ends.pure_iff, Ends.bind_iff]
        exact (descends_arm hbody hb₁ _ join none _).mono fun _ _ h₂ => h₁.trans h₂
      · rw [Ends.bind_iff]
        refine (descends_still (A := A) (compositional_still.enter b)).mono fun _ l₂ h₂ => ?_
        rw [Ends.bind_iff]
        refine (descends_still (A := A) (compositional_still.storing.lowerCondition cond)).mono
          fun c l₃ h₃ => ?_
        have h₁₃ := (h₁.trans h₂).trans h₃
        rw [Ends.bind_iff, Ends.pure_iff, Ends.bind_iff]
        refine (descends_arm hbody (h₁₃.under hb) _ join (some c) _).mono fun _ l₄ h₄ => ?_
        refine (inherits_lowerArms p rest ha ((h₁₃.trans h₄).under hb) label join (i + 1)).mono
          fun _ l₅ h₅ => ?_
        exact (h₁₃.trans h₄).trans h₅

end

/-- What leads on to the next round of the innermost open loop is a list of statements. -/
theorem inherits_innermostAdvance (p : Program) (fs : List LoopFrame) :
    Inherits (innermostAdvance p fs) := by
  cases fs with
  | nil => exact Inherits.pure
  | cons f rest => exact inherits_lowerStmts p f.step .pure

end Lower

end BitFlow
