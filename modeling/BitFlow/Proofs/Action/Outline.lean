import BitFlow.Proofs.Action.Compositional
import BitFlow.Proofs.Graph.Grow

/-!
# What only control flow changes

The outline of a graph is the kind of each block and who leads there. Reading and writing variables,
sealing blocks and lowering expressions leave it alone, and the open loops with it. So they do with
everything else that can be seen of a block but for its values, its seal, and which conditions its
jumps have.

Main statements: `Lower.compositional_keeps` -- whatever is made of such parts leaves alone what can
be seen of the blocks; `Lower.compositional_still` -- in particular their outline.
-/

namespace BitFlow

/-- What `f` sees of a block depends neither on the values that the block lists nor on its seal, and
    of the conditions of its jumps only on where there is one. -/
structure Block.Overlooks {β : Type} (f : Block → β) : Prop where
  phis : ∀ y vs, f { y with phis := vs } = f y
  instrs : ∀ y vs, f { y with instrs := vs } = f y
  isSealed : ∀ y c, f { y with isSealed := c } = f y
  conds : ∀ y (h : Operand → Operand),
    f { y with branches := y.branches.map fun br => { br with cond := br.cond.map h } } = f y

namespace Graph

/-! ## 1. Views and outlines -/

/-- Where control starts, and for each block what `f` sees of it. -/
def view {β : Type} (f : Block → β) (g : Graph) : BlockId × (BlockId → Option β) :=
  (g.entry, fun b => (g.block? b).map f)

/-- The kind of a block, if there is one. -/
def kind? (g : Graph) (b : BlockId) : Option BlockKind := (g.block? b).map Block.kind

/-- Where control starts, and for each block its kind and its predecessors. -/
def outline (g : Graph) : BlockId × (BlockId → Option BlockKind) × (BlockId → List BlockId) :=
  (g.entry, g.kind?, g.preds)

variable {g g' : Graph} {b : BlockId} {β : Type} {f : Block → β}

theorem kind?_of_block? {b : BlockId} {y : Block} (h : g.block? b = some y) :
    g.kind? b = some y.kind := by
  unfold kind?
  rw [h]
  rfl

theorem live_iff {b : BlockId} {y : Block} (h : g.block? b = some y) :
    g.kind? b = some .live ↔ y.isUnreachable = false := by
  rw [kind?_of_block? h]
  unfold Block.isUnreachable
  cases y.kind <;> decide

theorem kind?_pushBlock (g : Graph) (label : String) (kind : BlockKind) (b : BlockId) :
    (g.pushBlock label kind).kind? b = if b = g.nextBlock then some kind else g.kind? b := by
  unfold kind?
  rw [block?_pushBlock]
  split <;> rfl

theorem kind?_nextBlock (g : Graph) : g.kind? g.nextBlock = none := by
  unfold kind?
  rw [block?_nextBlock]
  rfl

theorem kind?_link (g : Graph) (q : BlockId) (cond : Option Operand) (c b : BlockId) :
    (g.link q cond c).kind? b = g.kind? b := by
  unfold kind?
  rw [block?_link, Option.map_map]
  congr 1
  funext y
  unfold linkBlock Block.addPred
  show Block.kind (if c = b then if q ∈ y.preds then y else _ else y) = y.kind
  split
  · split <;> rfl
  · rfl

theorem kind?_withDead_of_ne (g : Graph) {b c : BlockId} (h : c ≠ b) :
    (g.withDead b).kind? c = g.kind? c := by
  unfold kind?
  rw [block?_withDead, Option.map_map]
  congr 1
  funext y
  simp [h.symm]

theorem kind?_withDead {y : Block} (hb : g.block? b = some y) (c : BlockId) :
    (g.withDead b).kind? c = if c = b then some .unreachable else g.kind? c := by
  split
  · rename_i e
    unfold kind?
    rw [block?_withDead, e, hb]
    simp
  · rename_i e
    exact g.kind?_withDead_of_ne e

theorem view_congr (he : g'.entry = g.entry)
    (hb : ∀ b, (g'.block? b).map f = (g.block? b).map f) : g'.view f = g.view f :=
  Prod.ext he (funext hb)

/-- Kind and predecessors of each block are what the outline shows of it. -/
theorem view_eq_iff_outline_eq :
    g'.view (fun y => (y.kind, y.preds)) = g.view (fun y => (y.kind, y.preds)) ↔
      g'.outline = g.outline := by
  have hseen : ∀ (g : Graph) (b : BlockId), (g.block? b).map (fun y => (y.kind, y.preds)) =
      (g.kind? b).map fun k => (k, g.preds b) := by
    intro g b
    unfold kind? preds shape
    cases g.block? b <;> rfl
  have hpreds : ∀ (g : Graph) (b : BlockId), g.kind? b = none → g.preds b = [] := by
    intro g b h
    unfold kind? at h
    unfold preds shape
    rw [Option.map_eq_none_iff.1 h]
    rfl
  constructor
  · intro h
    obtain ⟨he, hb⟩ := Prod.ext_iff.1 h
    have hk : g'.kind? = g.kind? := by
      funext b
      have := congrArg (Option.map Prod.fst) (congrFun hb b)
      dsimp only [view] at this
      rw [hseen, hseen, Option.map_map, Option.map_map] at this
      simpa [Function.comp_def] using this
    have hp : g'.preds = g.preds := by
      funext b
      have := congrFun hb b
      dsimp only [view] at this
      rw [hseen, hseen, hk] at this
      cases hn : g.kind? b with
      | none => rw [hpreds g b hn, hpreds g' b (by rw [hk, hn])]
      | some k =>
        rw [hn] at this
        simpa using this
    unfold outline
    rw [show g'.entry = g.entry from he, hk, hp]
  · intro h
    obtain ⟨he, hk, hp⟩ : g'.entry = g.entry ∧ g'.kind? = g.kind? ∧ g'.preds = g.preds := by
      simpa [outline] using h
    refine view_congr he fun b => ?_
    rw [hseen, hseen, hk, hp]

theorem view_updateBlock (g : Graph) (b : BlockId) {h : Block → Block} (hf : ∀ y, f (h y) = f y) :
    (g.updateBlock b h).view f = g.view f := by
  refine view_congr rfl fun c => ?_
  rw [block?_updateBlock]
  split
  · rw [Option.map_map]
    congr 1
    funext y
    exact hf y
  · rfl

theorem view_addUses (g : Graph) (u : User) (ops : List Operand) :
    (g.addUses u ops).view f = g.view f :=
  view_congr (g.entry_addUses u ops) fun b => by rw [block?_addUses]

theorem view_withInstr (hf : Block.Overlooks f) (g : Graph) (b : BlockId) (place : Nat) (ty : Ty)
    (origin : Origin) (i : Instr) : (g.withInstr b place ty origin i).view f = g.view f := by
  refine view_congr (g.entry_withInstr b place ty origin i) fun c => ?_
  rw [block?_withInstr, Option.map_map]
  congr 1
  funext y
  exact hf.instrs y _

end Graph

/-- A name is nothing that is seen of a block. -/
theorem Tracked.view_christened {β : Type} {f : Block → β} (x : VarId) (o : Operand)
    (s : Tracked) : (s.christened x o).graph.view f = s.graph.view f := by
  obtain h | ⟨v, name, versions, h⟩ := s.christened_cases x o
  · rw [h]
  · rw [h]
    rfl

namespace Edit

open BitFlow.Graph

/-! ## 2. Operations that keep what is seen -/

theorem keeps_block {β : Type} {f : Graph → β} (b : BlockId) : Keeps f (block b) :=
  fun _ => ends_block_or trivial fun _ _ => rfl

theorem keeps_value {β : Type} {f : Graph → β} (v : ValueId) : Keeps f (value v) := by
  refine Keeps.get.bind fun g => ?_
  split
  · exact .pure _
  · exact .throw _

variable {β : Type} {f : Block → β}

theorem keeps_addUses (u : User) (ops : List Operand) :
    Keeps (view f) (modify (·.addUses u ops) : Edit PUnit) :=
  .modify fun g => g.view_addUses u ops

theorem keeps_updateBlock (b : BlockId) {h : Block → Block} (hf : ∀ y, f (h y) = f y) :
    Keeps (view f) (updateBlock b h) :=
  (keeps_block b).bind fun _ => .modify fun g => g.view_updateBlock b hf

theorem keeps_updateValue (v : ValueId) (h : Value → Value) : Keeps (view f) (updateValue v h) :=
  (keeps_value v).bind fun _ => .modify fun _ => rfl

theorem keeps_pushIncoming (v : ValueId) (o : Operand) (b : BlockId) :
    Keeps (view f) (pushIncoming v o b) := by
  refine (keeps_value v).bind fun x => ?_
  split
  · exact .throw _
  · exact Keeps.bind (.modify fun _ => rfl) fun _ => keeps_addUses _ _

variable (hf : Block.Overlooks f)

include hf

theorem keeps_insertInstr (b : BlockId) (position : Option Nat) (ty : Ty) (origin : Origin)
    (i : Instr) : Keeps (view f) (insertInstr b position ty origin i) := by
  refine (keeps_block b).bind fun y => ?_
  dsimp only
  split
  · exact .throw _
  · exact fun g => g.view_withInstr hf b _ ty origin i

theorem keeps_appendPhi (b : BlockId) (x : VarId) (ty : Ty) :
    Keeps (view f) (appendPhi b x ty) := by
  refine (keeps_block b).bind fun y => fun g => ?_
  show (g.withPhi b x ty).view f = g.view f
  refine view_congr rfl fun c => ?_
  rw [block?_withPhi, Option.map_map]
  congr 1
  funext y
  exact hf.phis y _

theorem keeps_replaceUses (v : ValueId) (o : Operand) : Keeps (view f) (replaceUses v o) := by
  refine Keeps.get.bind fun g => Keeps.bind (.modify fun _ => rfl) fun _ => ?_
  refine (Keeps.forM (fun u => ?_) _).bind fun _ => .pure _
  cases u with
  | value w => exact (keeps_updateValue w _).bind fun _ => keeps_addUses _ _
  | branch b => exact (keeps_updateBlock b fun y => hf.conds y _).bind fun _ => keeps_addUses _ _

theorem keeps_detach (v : ValueId) : Keeps (view f) (detach v) := by
  refine (keeps_value v).bind fun x => ?_
  split
  · exact .pure _
  · refine Keeps.bind (keeps_updateBlock _ fun y => ?_) fun _ => ?_
    · split
      · exact hf.phis y _
      · exact hf.instrs y _
    · refine Keeps.bind (.modify fun g => ?_) fun _ => .modify fun _ => rfl
      exact view_congr (by rw [removeUses_eq]) fun b => by rw [block?_removeUses]

end Edit

namespace Lower

/-! ## 3. Still actions -/

/-- **What reads, seals, expressions and plain statements are made of** leaves the open loops alone,
    and what is seen of the blocks. -/
theorem compositional_keeps {β : Type} {f : Block → β} (hf : Block.Overlooks f) :
    Compositional fun _ x => Keeps (fun l => (l.bench.graph.view f, l.loops)) x := by
  have hedit : ∀ {α : Type} {x : Edit α}, Keeps (Graph.view f) x →
      Keeps (fun l => (l.bench.graph.view f, l.loops)) (editing x) := by
    intro α x hx l
    refine (Ends.focus_iff _).2 ((Ends.focus_iff x).2 ?_)
    refine (hx l.bench.graph).mono fun a g (hg : g.view f = l.bench.graph.view f) => ?_
    exact congrArg (·, l.loops) hg
  exact {
    pure := fun a => .pure a
    throw := fun e => .throw e
    bind := fun hx hf => hx.bind hf
    look := fun _ _ hf => Keeps.get.bind hf
    block := fun _ hf => (hedit (Edit.keeps_block _)).bind hf
    insertInstr := fun b position ty origin i =>
      hedit (Edit.keeps_insertInstr hf b position ty origin i)
    appendPhi := fun b x ty => hedit (Edit.keeps_appendPhi hf b x ty)
    pushIncoming := fun v o b => hedit (Edit.keeps_pushIncoming v o b)
    updateValue := fun v h _ => hedit (Edit.keeps_updateValue v h)
    replaceUses := fun v o => hedit (Edit.keeps_replaceUses hf v o)
    detach := fun v => hedit (Edit.keeps_detach hf v)
    setForward := fun _ _ => hedit (.modify fun _ => rfl)
    sealed := fun _ => hedit (Edit.keeps_updateBlock _ fun y => hf.isSealed y _)
    onTables := fun _ _ _ => rfl
    christen := fun x o l =>
      congrArg (·, l.loops) (Tracked.view_christened x o ⟨l.bench.graph, l.bench.reaching⟩)
    setCursor := fun _ _ => rfl }

/-- What a still action leaves alone: the outline of the graph and the open loops. -/
def outlook (l : Lowering) :
    (BlockId × (BlockId → Option BlockKind) × (BlockId → List BlockId)) × List LoopFrame :=
  (l.bench.graph.outline, l.loops)

/-- The action changes neither the outline of the graph nor the open loops. -/
def Still (α : Type) (x : Lower α) : Prop := Keeps outlook x

/-- An action is still if it keeps the open loops, and kind and predecessors of each block. -/
theorem still_iff {α : Type} {x : Lower α} :
    Still α x ↔ Keeps (fun l => (l.bench.graph.view fun y => (y.kind, y.preds), l.loops)) x := by
  unfold Still Keeps
  simp only [outlook, Prod.mk.injEq, Graph.view_eq_iff_outline_eq]

/-- **What reads, seals, expressions and plain statements are made of is still.** -/
theorem compositional_still : Compositional Still := by
  have hstill : Still =
      fun _ x => Keeps (fun l => (l.bench.graph.view fun y => (y.kind, y.preds), l.loops)) x := by
    funext α x
    exact propext still_iff
  rw [hstill]
  exact compositional_keeps ⟨fun _ _ => rfl, fun _ _ => rfl, fun _ _ => rfl, fun _ _ => rfl⟩

end Lower

end BitFlow
