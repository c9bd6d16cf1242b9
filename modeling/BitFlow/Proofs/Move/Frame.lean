import BitFlow.Proofs.Action.Compositional
import BitFlow.Proofs.Build.Provision
import BitFlow.Proofs.Move.Build

/-!
# Expressions touch nothing that is there

Nothing that is done at the cursor touches what is there, and neither does a read. So an operand
that is held while an expression is lowered is still attached afterwards, and need not be looked up
again.

Main statements: `Build.outgrows_lowerExpr` -- nothing that was there is touched, with an answer or
with a fault; `Build.anchors_lowerExpr` -- an expression is lowered to an attached operand.
-/

namespace BitFlow

/-! ## 1. Expressions -/

/-- What is done at the cursor touches nothing that was there before. -/
theorem Lower.emissive_outgrows (g₀ : Graph) :
    Emissive fun _ x =>
      Yields (fun l : Lowering => g₀.Outgrows l.bench.graph) (fun _ => True) x := by
  have hedit : ∀ {α : Type} {x : Edit α}, Yields g₀.Outgrows (fun _ => True) x →
      Yields (fun l : Lowering => g₀.Outgrows l.bench.graph) (fun _ => True) (editing x) :=
    fun hx => .focus (fun _ h => h) (fun _ _ _ h => h)
      (Yields.focus (J := g₀.Outgrows) (fun _ h => h) (fun _ _ _ h => h) hx)
  exact {
    pure := fun _ => .pure trivial
    throw := .throw
    bind := fun hx hf => hx.bind fun a _ => hf a
    look := fun _ _ hf => .look fun l _ => hf l
    block := fun _ hf => (hedit (Edit.yields_seeBlock _)).bind fun y _ => hf y
    insertInstr := fun b position ty origin i =>
      hedit (Edit.outgrows_insertInstr b position ty origin i)
    setCursor := fun _ => .modify fun _ h => h }

namespace Build

variable {g₀ : Graph}

/-- A property of benches that lowerings inherit. -/
theorem yields_onBench {α : Type} {I : Bench → Prop} {x : Build α}
    (h : Yields (fun l : Lowering => I l.bench) (fun _ => True) (Lower.onBench x)) :
    Yields I (fun _ => True) x := fun s hs =>
  (Leaves.focus_iff x).1 (h ⟨s, [], 0⟩ hs)

theorem outgrows_read (x : VarId) (b : BlockId) :
    Yields (fun l : Lowering => g₀.Outgrows l.bench.graph) (fun _ => True)
      (Lower.tracking (Track.read x b)) :=
  .focus (fun _ h => h) (fun _ _ _ h => h)
    (Yields.focus (J := Track.Above g₀) (fun _ h => h) (fun _ _ _ h => h) (Track.above_read x b))

/-- **Lowering an expression touches nothing that was there before it.** -/
theorem outgrows_lowerExpr (e : Expr) :
    Yields (fun s : Bench => g₀.Outgrows s.graph) (fun _ => True) (lowerExpr e) :=
  yields_onBench ((Lower.emissive_outgrows g₀).lowerExpr outgrows_read e)

end Build

/-! ## 2. Answers are attached -/

namespace Build

variable {p : Program} {s : Bench}

/-- **What was there before an expression was lowered is held**, and graph and tables are consistent
    again. -/
structure Retains (s t : Bench) : Prop where
  idle : Idle t.tracked
  holds : s.graph.Holds t.graph

theorem retains_lowerExpr (p : Program) (h : Idle s.tracked) (e : Expr) :
    Ends (lowerExpr e) s (fun _ => True) fun _ t => Retains s t :=
  (moves_lowerExpr (p := p) e h).imp fun _ _ run hm =>
    ⟨hm.1.idle h, (Leaves.holds Bench.graph h.sane.steady fun _ => outgrows_lowerExpr e).of_ok run⟩

/-- **Attached operands are provided**: a read gives one, and an instruction is one. -/
theorem provision_anchors (p : Program) :
    Provision (fun _ _ => True) (fun s => Idle s.tracked) Graph.Anchors where
  stop := fun _ _ => trivial
  lit := Graph.anchors_lit
  read := fun hs x => ((moves_read (p := p) hs x _).and
    ((anchors_read hs x _).and (holds_read hs x _))).mono fun _ _ ⟨hm, ho, hheld⟩ =>
      ⟨⟨hm.1.idle hs, hheld.anchors⟩, ho⟩
  put := fun {s ty origin i v q} hs hos hput => by
    obtain ⟨y, hy⟩ := hput.known
    obtain ⟨place, hg⟩ := hput.graph
    have hsane := hs.sane.withInstr hy place ty origin fun o ho => (hos o ho).knows
    refine ⟨⟨⟨?_, hs.filling⟩, hput.keepsAnchors⟩, hput.anchors⟩
    show Sane none ⟨q.graph, s.reaching⟩
    rw [hg]
    exact hsane
  mark := fun hs ho _ => (ends_markPartial ho.knows).mono fun _ _ ⟨_, halike, ht⟩ => by
    subst ht
    exact ⟨⟨hs.sane.alike halike, halike.filling.trans hs.filling⟩, halike.graph.anchors⟩

/-- **The operand that an expression is lowered to is attached.** -/
theorem anchors_lowerExpr (p : Program) (e : Expr) {s : Bench} (h : Idle s.tracked) :
    Ends (lowerExpr e) s (fun _ => True) fun o t => t.graph.Anchors o :=
  (Leaves.any_iff.1 ((provision_anchors p).lowerExpr e h)).mono fun _ _ ho => ho.answer

end Build

end BitFlow
