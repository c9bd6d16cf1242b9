import BitFlow.Lower.Program
import BitFlow.Proofs.Graph.View

/-!
# Labels

A block carries a label for its reader; no step of a lowering looks at one. `Lowering.relabel`
changes all labels of a state, those of blocks and those of open loops. The step that an open loop
carries is left out there.

`Natural f x` says that the computation `x` does not see the change `f` of the state: it gives the
same answer or fault, and the changed state.

Main statements: one per operation that makes no block, such as `Edit.natural_insertInstr` and
`Edit.natural_replaceUses` -- none of them sees a label.
-/

namespace BitFlow

/-! ## 1. Other labels -/

section Relabel

variable (ρ : String → String)

/-- The block under another label. -/
def Block.relabel (y : Block) : Block := { y with label := ρ y.label }

/-- The graph with other labels. -/
def Graph.relabel (g : Graph) : Graph := { g with blocks := g.blocks.map (Block.relabel ρ) }

/-- The same for a graph with its tables, -/
def Tracked.relabel (s : Tracked) : Tracked := { s with graph := s.graph.relabel ρ }

/-- for a bench, -/
def Bench.relabel (s : Bench) : Bench := { s with graph := s.graph.relabel ρ }

/-- for an open loop, whose step is left out, -/
def LoopFrame.relabel (f : LoopFrame) : LoopFrame := { f with label := ρ f.label, step := [] }

/-- and for a lowering. -/
def Lowering.relabel (l : Lowering) : Lowering :=
  { l with bench := l.bench.relabel ρ, loops := l.loops.map (LoopFrame.relabel ρ) }

end Relabel

/-! ## 2. Computations that do not see a change -/

section Natural

variable {ε σ τ α β : Type}

/-- An outcome with its state changed by `f`. -/
def seen (f : σ → τ) : EStateM.Result ε σ α → EStateM.Result ε τ α
  | .ok a s => .ok a (f s)
  | .error e s => .error e (f s)

/-- **The computation does not see the change `f` of the state.** -/
def Natural (f : σ → σ) (x : EStateM ε σ α) : Prop := ∀ s, x.run (f s) = seen f (x.run s)

namespace Natural

variable {f : σ → σ}

theorem pure (a : α) : Natural f (pure a : EStateM ε σ α) := fun _ => rfl

theorem throw (e : ε) : Natural f (throw e : EStateM ε σ α) := fun _ => rfl

theorem bind {x : EStateM ε σ α} {k : α → EStateM ε σ β} (hx : Natural f x)
    (hk : ∀ a, Natural f (k a)) : Natural f (x >>= k) := by
  intro s
  rw [EStateM.run_bind, EStateM.run_bind, hx s]
  cases x.run s with
  | ok a t => exact hk a t
  | error e t => rfl

/-- A look at the state by a computation that does not depend on the change. -/
theorem look {k : σ → EStateM ε σ α} (blind : ∀ s, k (f s) = k s) (hk : ∀ s, Natural f (k s)) :
    Natural f (get >>= k) := by
  intro s
  show (k (f s)).run (f s) = seen f ((k s).run s)
  rw [blind]
  exact hk s s

theorem modify {h : σ → σ} (comm : ∀ s, h (f s) = f (h s)) :
    Natural f (modify h : EStateM ε σ PUnit) := by
  intro s
  show EStateM.Result.ok PUnit.unit (h (f s)) = .ok PUnit.unit (f (h s))
  rw [comm]

theorem forM {k : α → EStateM ε σ PUnit} (hk : ∀ a, Natural f (k a)) (as : List α) :
    Natural f (as.forM k) := by
  induction as with
  | nil => exact pure _
  | cons a as ih => exact bind (hk a) fun _ => ih

/-- A computation on a part of the state. -/
theorem focus {get : σ → τ} {set : τ → σ → σ} {h : τ → τ} (hget : ∀ s, get (f s) = h (get s))
    (hset : ∀ t s, set (h t) (f s) = f (set t s)) {x : EStateM ε τ α} (hx : Natural h x) :
    Natural f (BitFlow.focus get set x) := by
  intro s
  have hrun := hx (get s)
  rw [← hget] at hrun
  cases hr : x.run (get s) with
  | ok a t =>
    rw [hr] at hrun
    rw [focus_ok hr, focus_ok hrun, hset]
    rfl
  | error e t =>
    rw [hr] at hrun
    rw [focus_error hr, focus_error hrun, hset]
    rfl

end Natural

end Natural

/-! ## 3. Updates of a graph -/

/-- A change of all entries, and a change of one that goes along with it. -/
theorem modify_map {α β : Type} {f : α → β} {h : α → α} {k : β → β} (hk : ∀ a, k (f a) = f (h a))
    (as : Array α) (n : Nat) : (as.map f).modify n k = (as.modify n h).map f := by
  apply Array.ext_getElem?
  intro m
  rw [Array.getElem?_modify, Array.getElem?_map, Array.getElem?_map, Array.getElem?_modify]
  split
  · rw [Option.map_map, Option.map_map]
    congr 1
    funext a
    exact hk a
  · rfl

variable {ρ : String → String}

namespace Graph

theorem block?_relabel (g : Graph) (b : BlockId) :
    (g.relabel ρ).block? b = (g.block? b).map (Block.relabel ρ) := by
  simp [relabel, block?]

@[simp] theorem nextBlock_relabel (g : Graph) : (g.relabel ρ).nextBlock = g.nextBlock := by
  simp [relabel, nextBlock]

theorem updateBlock_relabel (g : Graph) (b : BlockId) {f : Block → Block}
    (hf : ∀ y, f (y.relabel ρ) = (f y).relabel ρ) :
    (g.relabel ρ).updateBlock b f = (g.updateBlock b f).relabel ρ := by
  unfold updateBlock relabel
  rw [modify_map hf]

theorem addUses_relabel (g : Graph) (u : User) (ops : List Operand) :
    (g.relabel ρ).addUses u ops = (g.addUses u ops).relabel ρ := by
  unfold addUses
  generalize ops.filterMap Operand.value? = vs
  induction vs generalizing g with
  | nil => rfl
  | cons v vs ih => exact ih (g.addUser v u)

theorem removeUses_relabel (g : Graph) (u : User) (ops : List Operand) :
    (g.relabel ρ).removeUses u ops = (g.removeUses u ops).relabel ρ := by
  unfold removeUses
  generalize ops.filterMap Operand.value? = vs
  induction vs generalizing g with
  | nil => rfl
  | cons v vs ih => exact ih (g.removeUser v u)

theorem withInstr_relabel (g : Graph) (b : BlockId) (place : Nat) (ty : Ty) (origin : Origin)
    (i : Instr) :
    (g.relabel ρ).withInstr b place ty origin i = (g.withInstr b place ty origin i).relabel ρ := by
  unfold withInstr
  rw [← addUses_relabel, ← updateBlock_relabel]
  · rfl
  · exact fun _ => rfl

theorem withPhi_relabel (g : Graph) (b : BlockId) (x : VarId) (ty : Ty) :
    (g.relabel ρ).withPhi b x ty = (g.withPhi b x ty).relabel ρ := by
  unfold withPhi
  rw [← updateBlock_relabel]
  · rfl
  · exact fun _ => rfl

theorem link_relabel (g : Graph) (p : BlockId) (cond : Option Operand) (b : BlockId) :
    (g.relabel ρ).link p cond b = (g.link p cond b).relabel ρ := by
  have hpred : ∀ y : Block, (y.relabel ρ).addPred p = (y.addPred p).relabel ρ := by
    intro y
    unfold Block.addPred
    rw [show (y.relabel ρ).preds = y.preds from rfl]
    split <;> rfl
  unfold link
  rw [← addUses_relabel, ← updateBlock_relabel, ← updateBlock_relabel]
  · exact hpred
  · exact fun _ => rfl

theorem resolve_relabel (g : Graph) (o : Operand) : (g.relabel ρ).resolve o = g.resolve o :=
  resolve_congr (show (g.relabel ρ).forwards = g.forwards from rfl) o

theorem trivialReplacement_relabel (g : Graph) (v : ValueId) :
    (g.relabel ρ).trivialReplacement v = g.trivialReplacement v := by
  have hblock : ∀ {α : Type} (b : BlockId) (k : Block → Except Fault α)
      (_ : ∀ y, k (y.relabel ρ) = k y), ((g.relabel ρ).requireBlock b >>= k) =
        (g.requireBlock b >>= k) := by
    intro α b k hk
    unfold requireBlock
    rw [block?_relabel]
    cases g.block? b with
    | none => rfl
    | some y => exact hk y
  unfold trivialReplacement
  refine congrArg (g.requireValue v >>= ·) (funext fun x => ?_)
  split
  · rfl
  · split
    · rfl
    · exact hblock _ _ fun _ => rfl

end Graph

/-! ## 4. Operations on a graph -/

namespace Edit

open BitFlow.Graph

/-- A look at a block by a computation that does not depend on its label. -/
theorem natural_block {α : Type} {b : BlockId} {k : Block → Edit α}
    (blind : ∀ y, k (y.relabel ρ) = k y) (hk : ∀ y, Natural (relabel ρ) (k y)) :
    Natural (relabel ρ) (block b >>= k) := by
  intro g
  rw [EStateM.run_bind, EStateM.run_bind, run_block, run_block, block?_relabel]
  cases g.block? b with
  | none => rfl
  | some y =>
    show (k (y.relabel ρ)).run (g.relabel ρ) = _
    rw [blind]
    exact hk y g

theorem natural_value (v : ValueId) : Natural (relabel ρ) (value v) := by
  refine .look (fun _ => rfl) fun g => ?_
  split
  · exact .pure _
  · exact .throw _

theorem natural_updateBlock (b : BlockId) {f : Block → Block}
    (hf : ∀ y, f (y.relabel ρ) = (f y).relabel ρ) : Natural (relabel ρ) (updateBlock b f) :=
  natural_block (fun _ => rfl) fun _ => .modify fun g => g.updateBlock_relabel b hf

theorem natural_updateValue (v : ValueId) (f : Value → Value) :
    Natural (relabel ρ) (updateValue v f) :=
  (natural_value v).bind fun _ => .modify fun _ => rfl

theorem natural_addUses (u : User) (ops : List Operand) :
    Natural (relabel ρ) (modify (·.addUses u ops) : Edit PUnit) :=
  .modify fun g => g.addUses_relabel u ops

theorem natural_insertInstr (b : BlockId) (position : Option Nat) (ty : Ty) (origin : Origin)
    (i : Instr) : Natural (relabel ρ) (insertInstr b position ty origin i) := by
  refine natural_block (fun _ => rfl) fun y => ?_
  dsimp only
  split
  · exact .throw _
  · intro g
    show EStateM.Result.ok g.nextValue ((g.relabel ρ).withInstr b _ ty origin i) = _
    rw [withInstr_relabel]
    rfl

theorem natural_appendPhi (b : BlockId) (x : VarId) (ty : Ty) :
    Natural (relabel ρ) (appendPhi b x ty) := by
  refine natural_block (fun _ => rfl) fun y => fun g => ?_
  show EStateM.Result.ok g.nextValue ((g.relabel ρ).withPhi b x ty) = _
  rw [withPhi_relabel]
  rfl

theorem natural_pushIncoming (v : ValueId) (o : Operand) (pred : BlockId) :
    Natural (relabel ρ) (pushIncoming v o pred) := by
  refine (natural_value v).bind fun x => ?_
  split
  · exact .throw _
  · exact .bind (.modify fun _ => rfl) fun _ => natural_addUses _ _

theorem natural_replaceUses (v : ValueId) (o : Operand) :
    Natural (relabel ρ) (replaceUses v o) := by
  refine .look (fun _ => rfl) fun g => .bind (.modify fun _ => rfl) fun _ => ?_
  refine .bind (.forM (fun u => ?_) _) fun _ => .pure _
  cases u with
  | value w => exact (natural_updateValue w _).bind fun _ => natural_addUses _ _
  | branch b =>
    refine .bind (natural_updateBlock b ?_) fun _ => natural_addUses _ _
    exact fun _ => rfl

theorem natural_detach (v : ValueId) : Natural (relabel ρ) (detach v) := by
  refine (natural_value v).bind fun x => ?_
  split
  · exact .pure _
  · refine .bind (natural_updateBlock _ ?_) fun _ => ?_
    · intro y
      split <;> rfl
    · exact .bind (.modify fun g => g.removeUses_relabel _ _) fun _ => .modify fun _ => rfl

theorem natural_addEdge (source : BlockId) (cond : Option Operand) (target : BlockId) :
    Natural (relabel ρ) (addEdge source cond target) := by
  refine natural_block (fun _ => rfl) fun z => ?_
  dsimp only
  split
  · exact .pure _
  · refine natural_block (fun _ => rfl) fun y => ?_
    split
    · exact .throw _
    · intro g
      show EStateM.Result.ok PUnit.unit ((g.relabel ρ).link source cond target) = _
      rw [link_relabel]
      rfl

end Edit

end BitFlow
