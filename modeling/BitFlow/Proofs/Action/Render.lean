import BitFlow.Proofs.Action.Storing

/-!
# One lowering under two names

A label may leave the name of a loop open: it begins with `*`, and `named w` puts the name `w`
there. A computation `y` renders a computation `x` if it does the same under the labels that
`named w` makes of those of `x`. What the open loops carry for a next round plays no part in this;
which loops are open does, because a jump out of no loop is refused.

Main statements: `Lower.renders_arm`, `Lower.renders_loop` -- arms and loops render each other if
their bodies do.
-/

namespace BitFlow

/-! ## 1. Names of loops -/

/-- The label with the name `w` for a leading `*`. -/
def named (w label : String) : String :=
  match label.toList with
  | '*' :: rest => w ++ String.ofList rest
  | _ => label

theorem named_open (w s : String) : named w ("*" ++ s) = w ++ s := by
  have h : ("*" ++ s).toList = '*' :: s.toList := by
    rw [String.toList_append]
    rfl
  unfold named
  rw [h]
  simp

theorem named_eq_self {w label : String} (h : label.toList.head? ≠ some '*') :
    named w label = label := by
  unfold named
  split
  · rename_i hl
    rw [hl] at h
    exact absurd rfl h
  · rfl

theorem head?_append {c s : String} {a : Char} (h : c.toList.head? = some a) :
    (c ++ s).toList.head? = some a := by
  rw [String.toList_append, List.head?_append, h]
  rfl

/-- A label under a construct with a name keeps it. -/
theorem named_append_of_head {w c s : String} {a : Char} (h : c.toList.head? = some a)
    (ha : a ≠ '*') : named w (c ++ s) = c ++ s := by
  refine named_eq_self ?_
  rw [head?_append h]
  exact fun e => ha (Option.some.inj e)

/-- The end of a label has no name in it. -/
theorem named_append (w label : String) {s : String} (h : s.toList.head? ≠ some '*') :
    named w (label ++ s) = named w label ++ s := by
  cases hl : label.toList with
  | nil =>
    have e : label = "" := String.toList_inj.1 hl
    subst e
    rw [String.empty_append, named_eq_self h]
    exact (String.empty_append).symm
  | cons a rest =>
    by_cases ha : a = '*'
    · subst ha
      have e : label = "*" ++ String.ofList rest := by
        rw [← String.toList_inj, hl, String.toList_append]
        simp
      rw [e, String.append_assoc, named_open, named_open, String.append_assoc]
    · have hhead : label.toList.head? = some a := by rw [hl]; rfl
      rw [named_append_of_head hhead ha, named_eq_self]
      rw [hhead]
      exact fun e => ha (Option.some.inj e)

/-! ## 2. Computations that see no labels -/

/-- The blocks that test the conditions of the open loops. -/
def Lowering.heads (l : Lowering) : List BlockId := l.loops.map LoopFrame.head

@[simp] theorem Lowering.heads_relabel (ρ : String → String) (l : Lowering) :
    (l.relabel ρ).heads = l.heads := by
  unfold heads relabel
  rw [List.map_map]
  rfl

@[simp] theorem Graph.relabel_id (g : Graph) : g.relabel id = g := by
  show { g with blocks := g.blocks.map (fun y => y) } = g
  rw [Array.map_id']

namespace Lower

variable {α β : Type}

/-- The action sees no label and keeps the open loops. -/
def Blind (α : Type) (x : Lower α) : Prop :=
  (∀ ρ, Natural (Lowering.relabel ρ) x) ∧ Keeps Lowering.heads x

theorem keeps_heads_editing (x : Edit α) : Keeps Lowering.heads (editing x) := by
  apply Keeps.focus
  exact fun _ _ => rfl

theorem blind_editing {x : Edit α} (hx : ∀ ρ, Natural (Graph.relabel ρ) x) :
    Blind α (editing x) := by
  refine ⟨fun ρ => ?_, keeps_heads_editing x⟩
  have hbench : Natural (Bench.relabel ρ) (Build.onGraph x) := by
    apply Natural.focus (h := Graph.relabel ρ)
    · exact fun _ => rfl
    · exact fun _ _ => rfl
    · exact hx ρ
  apply Natural.focus (h := Bench.relabel ρ)
  · exact fun _ => rfl
  · exact fun _ _ => rfl
  · exact hbench

/-- **What reads, seals, expressions and plain statements are made of sees no label.** -/
theorem compositional_blind : Compositional Blind where
  pure a := ⟨fun _ => .pure a, .pure a⟩
  throw e := ⟨fun _ => .throw e, .throw e⟩
  bind hx hf := ⟨fun ρ => (hx.1 ρ).bind fun a => (hf a).1 ρ, hx.2.bind fun a => (hf a).2⟩
  look blind _ hf := ⟨fun ρ => .look (blind ρ) fun l => (hf l).1 ρ, Keeps.get.bind fun l => (hf l).2⟩
  block {α b f} blind hf := by
    constructor
    · intro ρ l
      rw [run_block_bind, run_block_bind]
      rw [show (l.relabel ρ).bench.graph = l.bench.graph.relabel ρ from rfl, Graph.block?_relabel]
      cases l.bench.graph.block? b with
      | none => rfl
      | some y =>
        show (f (y.relabel ρ)).run _ = _
        rw [blind]
        exact (hf y).1 ρ l
    · exact (keeps_heads_editing _).bind fun y => (hf y).2
  insertInstr b position ty origin i :=
    blind_editing fun _ => Edit.natural_insertInstr b position ty origin i
  appendPhi b x ty := blind_editing fun _ => Edit.natural_appendPhi b x ty
  pushIncoming v o b := blind_editing fun _ => Edit.natural_pushIncoming v o b
  updateValue v f _ := blind_editing fun _ => Edit.natural_updateValue v f
  replaceUses v o := blind_editing fun _ => Edit.natural_replaceUses v o
  detach v := blind_editing fun _ => Edit.natural_detach v
  setForward _ _ := blind_editing fun _ => .modify fun _ => rfl
  sealed b := blind_editing fun _ => Edit.natural_updateBlock b fun _ => rfl
  onTables _ _ := ⟨fun _ _ => rfl, fun _ => rfl⟩
  christen x o := by
    refine ⟨fun ρ l => ?_, fun _ => rfl⟩
    have h := Tracked.christened_relabel ρ x o ⟨l.bench.graph, l.bench.reaching⟩
    exact congrArg (fun t : Tracked => EStateM.Result.ok PUnit.unit { l.relabel ρ with
      bench := { l.bench with graph := t.graph, reaching := t.reaching } }) h
  setCursor _ := ⟨fun _ _ => rfl, fun _ => rfl⟩

theorem blind_addEdge (b : BlockId) (cond : Option Operand) (c : BlockId) :
    Blind Unit (editing (Edit.addEdge b cond c)) :=
  blind_editing fun _ => Edit.natural_addEdge b cond c

theorem blind_addBreak (b : BlockId) : Blind PUnit (addBreak b) := by
  constructor
  · intro ρ
    refine .modify fun l => ?_
    cases hl : l.loops <;> simp [Lowering.relabel, LoopFrame.relabel, hl]
  · refine .modify fun l => ?_
    cases hl : l.loops <;> simp [Lowering.heads, hl]

/-! ## 3. Rendering -/

/-- The state `l` is the state `m` with the open name filled in. -/
def Filled (w : String) (m l : Lowering) : Prop := l.relabel id = m.relabel (named w)

theorem Filled.heads {w : String} {m l : Lowering} (h : Filled w m l) : l.heads = m.heads := by
  rw [← Lowering.heads_relabel id l, h, Lowering.heads_relabel]

theorem filled_iff {w : String} {m l : Lowering} : Filled w m l ↔
    l.bench = m.bench.relabel (named w) ∧
      l.loops.map (LoopFrame.relabel id) = m.loops.map (LoopFrame.relabel (named w)) ∧
      l.nextLabel = m.nextLabel := by
  have hbench : l.bench.relabel id = l.bench := by
    unfold Bench.relabel
    rw [Graph.relabel_id]
  unfold Filled Lowering.relabel
  rw [hbench, Lowering.mk.injEq]

/-- What a computation and one that renders it end with. -/
def Agree (w : String) (H : List BlockId) :
    EStateM.Result Fault Lowering α → EStateM.Result Fault Lowering α → Prop
  | .ok a m, .ok a' l => a' = a ∧ Filled w m l ∧ m.heads = H
  | .error e _, .error e' _ => e' = e
  | _, _ => False

/-- **The computation `y` renders `x`** where loops with the heads `H` are open, and leaves those
    with the heads `H'` open: both give the same answer or the same fault, and what `y` leaves is
    what `x` leaves with the open name filled in. -/
def Renders (w : String) (H H' : List BlockId) (x y : Lower α) : Prop :=
  ∀ m l, Filled w m l → m.heads = H → Agree w H' (x.run m) (y.run l)

namespace Renders

variable {w : String} {H H₁ H₂ : List BlockId}

theorem pure (a : α) : Renders w H H (pure a) (pure a) := fun _ _ h hH => ⟨rfl, h, hH⟩

theorem throw (e : Fault) : Renders w H H₁ (throw e : Lower α) (throw e) := fun _ _ _ _ => rfl

theorem bind {x y : Lower α} {f g : α → Lower β} (hx : Renders w H H₁ x y)
    (hf : ∀ a, Renders w H₁ H₂ (f a) (g a)) : Renders w H H₂ (x >>= f) (y >>= g) := by
  intro m l h hH
  have hrun := hx m l h hH
  rw [EStateM.run_bind, EStateM.run_bind]
  cases hm : x.run m with
  | ok a m' =>
    cases hl : y.run l with
    | ok a' l' =>
      rw [hm, hl] at hrun
      obtain ⟨rfl, h', hH'⟩ := hrun
      exact hf a' m' l' h' hH'
    | error e l' =>
      rw [hm, hl] at hrun
      exact hrun.elim
  | error e m' =>
    cases hl : y.run l with
    | ok a l' =>
      rw [hm, hl] at hrun
      exact hrun.elim
    | error e' l' =>
      rw [hm, hl] at hrun
      exact hrun

/-- A look at the state. -/
theorem look {f g : Lowering → Lower α}
    (h : ∀ m l, Filled w m l → m.heads = H → Renders w H H₁ (f m) (g l)) :
    Renders w H H₁ (get >>= f) (get >>= g) := fun m l hml hH => h m l hml hH m l hml hH

/-- What sees no label renders itself. -/
theorem of_blind {x : Lower α} (hx : Blind α x) : Renders w H H x x := by
  intro m l h hH
  have hl := hx.1 id l
  have hm := hx.1 (named w) m
  rw [show l.relabel id = m.relabel (named w) from h, hm] at hl
  have hkeep := hx.2 m
  cases hrm : x.run m with
  | ok a m' =>
    cases hrl : x.run l with
    | ok a' l' =>
      rw [hrm, hrl] at hl
      injection hl with e₁ e₂
      exact ⟨e₁.symm, e₂.symm, (hkeep.of_ok hrm).trans hH⟩
    | error e l' =>
      rw [hrm, hrl] at hl
      cases hl
  | error e m' =>
    cases hrl : x.run l with
    | ok a' l' =>
      rw [hrm, hrl] at hl
      cases hl
    | error e' l' =>
      rw [hrm, hrl] at hl
      injection hl with e₁ _
      exact e₁.symm

/-- Only runs under the given open loops count. -/
theorem congr {x x' y y' : Lower α} (hx : ∀ m : Lowering, m.heads = H → x.run m = x'.run m)
    (hy : ∀ l : Lowering, l.heads = H → y.run l = y'.run l) (h : Renders w H H₁ x' y') :
    Renders w H H₁ x y := by
  intro m l hml hH
  rw [hx m hH, hy l (hml.heads.trans hH)]
  exact h m l hml hH

end Renders

/-! ## 4. Blocks and loops -/

section Blocks

variable {w : String} {H H' : List BlockId}

/-- A look at a block. -/
theorem renders_block {b : BlockId} {f g : Block → Lower α}
    (h : ∀ y : Block, Renders w H H' (f y) (g (y.relabel (named w)))) :
    Renders w H H' ((liftM (Edit.block b) : Lower Block) >>= f)
      ((liftM (Edit.block b) : Lower Block) >>= g) := by
  intro m l hml hH
  rw [liftM_edit, run_block_bind, run_block_bind, (filled_iff.1 hml).1]
  have hblock : (m.bench.relabel (named w)).graph.block? b =
      (m.bench.graph.block? b).map (Block.relabel (named w)) := m.bench.graph.block?_relabel ..
  rw [hblock]
  cases m.bench.graph.block? b with
  | none => rfl
  | some y => exact h y m l hml hH

theorem renders_addBlock {label label' : String} (kind : BlockKind)
    (h : named w label = label') :
    Renders w H H (liftM (Edit.addBlock label kind) : Lower BlockId)
      (liftM (Edit.addBlock label' kind) : Lower BlockId) := by
  intro m l hml hH
  obtain ⟨hbench, hloops, hnext⟩ := filled_iff.1 hml
  have hgraph : l.bench.graph = m.bench.graph.relabel (named w) := congrArg Bench.graph hbench
  have hpush : l.bench.graph.pushBlock label' kind =
      (m.bench.graph.pushBlock label kind).relabel (named w) := by
    rw [hgraph, ← h]
    unfold Graph.pushBlock
    rw [Graph.nextBlock_relabel]
    unfold Graph.relabel
    rw [Array.map_push]
    rfl
  refine ⟨?_, filled_iff.2 ⟨?_, hloops, hnext⟩, hH⟩
  · show l.bench.graph.nextBlock = m.bench.graph.nextBlock
    rw [hgraph, Graph.nextBlock_relabel]
  · show { l.bench with graph := l.bench.graph.pushBlock label' kind } = _
    rw [hpush, hbench]
    rfl

theorem renders_newBlock {label label' : String} (parent : BlockId) (h : named w label = label') :
    Renders w H H (newBlock label parent) (newBlock label' parent) :=
  renders_block fun _ => renders_addBlock _ h

/-- A new label, and what follows it. -/
theorem renders_freshLabel {c c' : String} {f g : String → Lower α}
    (h : ∀ n : Nat, Renders w H H' (f (c ++ toString n)) (g (c' ++ toString n))) :
    Renders w H H' (freshLabel c >>= f) (freshLabel c' >>= g) := by
  intro m l hml hH
  obtain ⟨hbench, hloops, hnext⟩ := filled_iff.1 hml
  have hrun : ∀ (c : String) (k : String → Lower α) (l : Lowering), (freshLabel c >>= k).run l =
      (k (c ++ toString l.nextLabel)).run { l with nextLabel := l.nextLabel + 1 } :=
    fun _ _ _ => rfl
  rw [hrun, hrun, hnext]
  exact h m.nextLabel _ _ (filled_iff.2 ⟨hbench, hloops, rfl⟩) hH

theorem renders_pushLoop {label label' : String} {head : BlockId} {step step' : List Stmt}
    (h : named w label = label') :
    Renders w H (head :: H) (pushLoop ⟨label, head, [], step⟩)
      (pushLoop ⟨label', head, [], step'⟩) := by
  intro m l hml hH
  obtain ⟨hbench, hloops, hnext⟩ := filled_iff.1 hml
  refine ⟨rfl, filled_iff.2 ⟨hbench, ?_, hnext⟩, congrArg (head :: ·) hH⟩
  show LoopFrame.relabel id _ :: l.loops.map _ = LoopFrame.relabel (named w) _ :: m.loops.map _
  rw [hloops, ← h]
  rfl

/-- The innermost loop is closed, and what follows. -/
theorem renders_popLoop {label label' : String} {head : BlockId} {f g : LoopFrame → Lower α}
    (h : ∀ a : LoopFrame, a.head = head → ∀ step,
      Renders w H H' (f a) (g { a with label := named w a.label, step := step })) :
    Renders w (head :: H) H' (popLoop label >>= f) (popLoop label' >>= g) := by
  intro m l hml hH
  obtain ⟨hbench, hloops, hnext⟩ := filled_iff.1 hml
  have hrun : ∀ (label : String) (k : LoopFrame → Lower α) (l : Lowering) (a : LoopFrame)
      (rest : List LoopFrame), l.loops = a :: rest →
      (popLoop label >>= k).run l = (k a).run { l with loops := rest } := by
    intro label k l a rest hl
    rw [EStateM.run_bind]
    unfold popLoop
    rw [EStateM.run_bind, EStateM.run_get]
    dsimp only
    rw [hl]
    rfl
  cases hm : m.loops with
  | nil =>
    unfold Lowering.heads at hH
    rw [hm] at hH
    cases hH
  | cons a rest =>
    unfold Lowering.heads at hH
    rw [hm, List.map_cons, List.cons.injEq] at hH
    cases hl : l.loops with
    | nil =>
      rw [hm, hl] at hloops
      cases hloops
    | cons a' rest' =>
      rw [hm, hl, List.map_cons, List.map_cons, List.cons.injEq] at hloops
      have ha : a' = { a with label := named w a.label, step := a'.step } := by
        have e := hloops.1
        cases a
        cases a'
        simp only [LoopFrame.relabel, LoopFrame.mk.injEq] at e
        obtain ⟨rfl, rfl, rfl, -⟩ := e
        rfl
      rw [hrun label f m a rest hm, hrun label' g l a' rest' hl, ha]
      exact h a hH.1 a'.step _ _ (filled_iff.2 ⟨hbench, hloops.2, hnext⟩) hH.2

end Blocks

/-! ## 5. Jumps, arms and loops -/

section Control

variable {w : String} {H : List BlockId} {advance advance' body body' : BlockId → Lower BlockId}

theorem renders_addEdge (b : BlockId) (cond : Option Operand) (c : BlockId) :
    Renders w H H (liftM (Edit.addEdge b cond c) : Lower Unit)
      (liftM (Edit.addEdge b cond c) : Lower Unit) := by
  rw [liftM_edit]
  exact .of_blind (blind_addEdge b cond c)

theorem renders_sealBlock (b : BlockId) :
    Renders w H H (liftM (Track.sealBlock b) : Lower Unit)
      (liftM (Track.sealBlock b) : Lower Unit) := .of_blind (compositional_blind.sealBlock b)

theorem renders_deadBlock : Renders w H H deadBlock deadBlock := by
  refine renders_freshLabel fun n => ?_
  have hlabel : named w ("dead" ++ toString n) = "dead" ++ toString n :=
    named_append_of_head (a := 'd') (by decide) (by decide)
  exact .bind (renders_addBlock _ hlabel) fun b => .bind (renders_sealBlock b) fun _ => .pure b

theorem renders_breakLoop (b : BlockId) : Renders w H H (breakLoop b) (breakLoop b) := by
  have hleave : ∀ live : Bool, Renders w H H
      (do
        if live then addBreak b
        deadBlock : Lower BlockId)
      (do
        if live then addBreak b
        deadBlock : Lower BlockId) := by
    intro live
    cases live
    · exact renders_deadBlock
    · exact .bind (.of_blind (blind_addBreak b)) fun _ => renders_deadBlock
  refine renders_block fun y => .look fun m l hml _ => ?_
  have hloops : l.loops.isEmpty = m.loops.isEmpty := by
    have hheads := hml.heads
    unfold Lowering.heads at hheads
    rw [← List.isEmpty_map, hheads, List.isEmpty_map]
  dsimp only
  rw [hloops]
  by_cases hout : m.loops.isEmpty = true
  · rw [if_pos hout, if_pos hout]
    exact .throw _
  · rw [if_neg hout, if_neg hout]
    exact hleave (!y.isUnreachable)

/-- Where a loop is open, `continue` goes on to its head. -/
theorem run_continueLoop {head : BlockId} {l : Lowering} (h : l.heads = head :: H) (b : BlockId) :
    (continueLoop advance b).run l = (do
      let last ← advance b
      (liftM (Edit.addEdge last none head) : Lower Unit)
      deadBlock : Lower BlockId).run l := by
  unfold Lowering.heads at h
  cases hl : l.loops with
  | nil =>
    rw [hl] at h
    cases h
  | cons f rest =>
    rw [hl, List.map_cons, List.cons.injEq] at h
    unfold continueLoop
    rw [EStateM.run_bind, EStateM.run_get]
    dsimp only
    rw [hl, ← h.1]

theorem run_continueLoop_outside {l : Lowering} (h : l.heads = []) (b : BlockId) :
    (continueLoop advance b).run l =
      (throw (.unsupported .continueOutside "continue") : Lower BlockId).run l := by
  unfold continueLoop
  rw [EStateM.run_bind, EStateM.run_get]
  dsimp only
  rw [List.map_eq_nil_iff.1 h]

theorem renders_continueLoop (ha : ∀ b, Renders w H H (advance b) (advance' b)) (b : BlockId) :
    Renders w H H (continueLoop advance b) (continueLoop advance' b) := by
  cases H with
  | nil =>
    refine .congr (fun _ h => run_continueLoop_outside h b)
      (fun _ h => run_continueLoop_outside h b) ?_
    exact .throw _
  | cons head H =>
    refine .congr (fun _ h => run_continueLoop h b) (fun _ h => run_continueLoop h b) ?_
    exact .bind (ha b) fun last => .bind (renders_addEdge _ _ _) fun _ => renders_deadBlock

/-- **Arms render each other if their bodies do.** -/
theorem renders_arm {label : String} {b join : BlockId} {cond : Option Operand} {isEmpty : Bool}
    (hlabel : named w label = label) (hbody : ∀ c, Renders w H H (body c) (body' c)) :
    Renders w H H (arm label b join cond isEmpty body) (arm label b join cond isEmpty body') := by
  unfold arm
  cases isEmpty
  · refine .bind (renders_newBlock b hlabel) fun first => .bind (renders_addEdge _ _ _) fun _ => ?_
    refine .bind (renders_sealBlock first) fun _ => .bind (hbody first) fun last => ?_
    exact renders_addEdge _ _ _
  · exact renders_addEdge _ _ _

theorem renders_sealJoin (join : BlockId) : Renders w H H (sealJoin join) (sealJoin join) := by
  refine renders_block fun y => ?_
  show Renders w H H (if y.preds.isEmpty then _ else _) (if y.preds.isEmpty then _ else _)
  split
  · refine .bind ?_ fun _ => renders_sealBlock join
    rw [liftM_edit]
    exact .of_blind (blind_editing fun _ => Edit.natural_updateBlock join fun _ => rfl)
  · exact renders_sealBlock join

theorem renders_loopTest {label label' : String} {cond : Expr} {known : Option Bool}
    {head first : BlockId} (hlabel : named w label = label') :
    Renders w H H (loopTest label cond known head first)
      (loopTest label' cond known head first) := by
  unfold loopTest
  split
  · exact .bind (renders_addEdge _ _ _) fun _ => .pure none
  · refine .bind (renders_newBlock head ?_) fun exit => ?_
    · rw [named_append w label (by decide), hlabel]
    refine .bind (.of_blind (compositional_blind.enter head)) fun _ => ?_
    refine .bind (.of_blind (compositional_blind.storing.lowerCondition cond)) fun c => ?_
    refine .bind (renders_addEdge _ _ _) fun _ => .bind (renders_addEdge _ _ _) fun _ => ?_
    exact .pure (some exit)

theorem renders_joinBreaks (exit : BlockId) (breaks : List BlockId) :
    Renders w H H (joinBreaks exit breaks) (joinBreaks exit breaks) := by
  induction breaks with
  | nil => exact .pure _
  | cons b breaks ih => exact .bind (renders_addEdge b none exit) fun _ => ih

theorem renders_loopExit (f : LoopFrame) (step : List Stmt) (exit? : Option BlockId) :
    Renders w H H (loopExit f exit?)
      (loopExit { f with label := named w f.label, step := step } exit?) := by
  have hlabel : named w (f.label ++ ".exit") = named w f.label ++ ".exit" :=
    named_append w f.label (by decide)
  cases exit? with
  | some exit =>
    exact .bind (renders_joinBreaks exit f.breaks) fun _ =>
      .bind (renders_sealBlock f.head) fun _ => .pure exit
  | none =>
    refine .bind (renders_sealBlock f.head) fun _ => ?_
    dsimp only
    split
    · exact renders_addBlock _ hlabel
    · exact .bind (renders_newBlock f.head hlabel) fun exit =>
        .bind (renders_joinBreaks exit f.breaks) fun _ => .pure exit

/-- **Loops render each other if their rounds do**: a body with what leads on to the next round. -/
theorem renders_loop {construct construct' : String} {cond : Expr} {step step' : List Stmt}
    {b : BlockId} (hname : ∀ n : Nat, named w (construct ++ toString n) = construct' ++ toString n)
    (hround : ∀ head first, Renders w (head :: H) (head :: H) (body first >>= advance)
      (body' first >>= advance')) :
    Renders w H H (loop construct cond step body advance b)
      (loop construct' cond step' body' advance' b) := by
  refine .bind (.of_blind (compositional_blind.knownCondition cond)) fun known => ?_
  split
  · exact .pure b
  refine renders_freshLabel fun n => ?_
  have hlabel := hname n
  refine .bind (renders_newBlock b ?_) fun head => ?_
  · rw [named_append _ _ (by decide), hlabel]
  refine .bind (renders_newBlock head ?_) fun first => ?_
  · rw [named_append _ _ (by decide), hlabel]
  refine .bind (renders_addEdge _ _ _) fun _ => .bind (renders_loopTest hlabel) fun exit? => ?_
  refine .bind (renders_sealBlock first) fun _ => .bind (renders_pushLoop hlabel) fun _ => ?_
  have hclose : ∀ last, Renders w (head :: H) H
      (popLoop (construct ++ toString n) >>= fun f => do
        (liftM (Edit.addEdge last none head) : Lower Unit)
        let exit ← loopExit f exit?
        (liftM (Track.sealBlock exit) : Lower Unit)
        Pure.pure exit)
      (popLoop (construct' ++ toString n) >>= fun f => do
        (liftM (Edit.addEdge last none head) : Lower Unit)
        let exit ← loopExit f exit?
        (liftM (Track.sealBlock exit) : Lower Unit)
        Pure.pure exit) := by
    intro last
    refine renders_popLoop fun f _ step => .bind (renders_addEdge _ _ _) fun _ => ?_
    exact .bind (renders_loopExit f step exit?) fun exit => .bind (renders_sealBlock exit) fun _ =>
      .pure exit
  have hrest := Renders.bind (hround head first) hclose
  rw [bind_assoc, bind_assoc] at hrest
  exact hrest

end Control

end Lower

end BitFlow
