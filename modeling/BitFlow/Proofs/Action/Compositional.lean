import BitFlow.Proofs.Action.Emissive

/-!
# Properties of actions, part by part

Reading variables and sealing blocks are made of a few operations on graph and tables beside those
at the cursor. A property of actions that all these parts have and that sequences inherit is a
property of reads and seals.

Main statements: `Compositional.read`, `Compositional.sealBlock`.
-/

namespace BitFlow

namespace Lower

variable {α β : Type}

/-! ## 1. The parts -/

/-- **A property of actions that sequences inherit and that the parts have** of which every action
    on graph, tables and cursor is made. Names are given by one of the parts and seen by no
    other. -/
structure Compositional (P : (α : Type) → Lower α → Prop) : Prop extends Emissive P where
  appendPhi : ∀ b x ty, P ValueId (editing (Edit.appendPhi b x ty))
  pushIncoming : ∀ v o b, P Unit (editing (Edit.pushIncoming v o b))
  updateValue : ∀ v (f : Value → Value), (∀ x n, f { x with name := n } = { f x with name := n }) →
    P Unit (editing (Edit.updateValue v f))
  replaceUses : ∀ v o, P (List User) (editing (Edit.replaceUses v o))
  detach : ∀ v, P Unit (editing (Edit.detach v))
  setForward : ∀ v o, P PUnit (editing (modify (·.setForward v o)))
  sealed : ∀ b, P Unit (editing (Edit.updateBlock b fun y => { y with isSealed := true }))
  onTables : ∀ f, Reaching.Plain f → P Unit (tracking (Track.onTables f))
  christen : ∀ x o, P PUnit (tracking (modify (Tracked.christened x o)))

/-! ## 2. Reading and sealing -/

namespace Compositional

open Emissive (track_edit build_edit)

variable {P : (α : Type) → Lower α → Prop} (h : Compositional P)

include h

theorem retire (v : ValueId) (o : Operand) : P (List User) (tracking (Track.retire v o)) := by
  refine h.track_bind (track_edit (h.replaceUses v o)) fun former => ?_
  refine h.track_bind (track_edit (h.detach v)) fun _ => ?_
  refine h.track_bind (track_edit (h.setForward v o)) fun _ => ?_
  exact h.track_bind (h.onTables _ (Reaching.plain_reroute v o)) fun _ => h.pure _

theorem removeTrivialWithin (n : Nat) (v : ValueId) :
    P Operand (tracking (Track.removeTrivialWithin n v)) := by
  induction n generalizing v with
  | zero => exact h.throw _
  | succ n ih =>
    refine h.track_value (fun _ => rfl) fun x => ?_
    split
    · refine h.track_bind (h.trivialReplacement v) fun o? => ?_
      split
      · exact h.pure _
      · refine h.track_bind (h.retire v _) fun former => ?_
        refine h.track_bind (h.track_forM (fun u => ?_) former) fun _ => track_edit (h.resolve _)
        cases u with
        | branch b => exact h.pure _
        | value u =>
          refine h.track_look (fun _ _ => rfl) (fun _ => rfl) fun s => ?_
          split
          · exact h.pure _
          · refine h.track_value (fun _ => rfl) fun y => ?_
            split
            · exact h.track_bind (ih u) fun _ => h.pure _
            · exact h.pure _
    · exact track_edit (h.resolve _)

theorem removeTrivial (v : ValueId) : P Operand (tracking (Track.removeTrivial v)) := by
  refine h.track_look (fun _ _ => rfl) (fun s => ?_) fun _ => h.removeTrivialWithin _ v
  rw [show s.unnamed.graph.values.size = s.graph.values.size from Array.size_map]

theorem newPhi (b : BlockId) (x : VarId) : P ValueId (tracking (Track.newPhi b x)) := by
  rw [Track.newPhi_eq]
  refine h.track_bind (h.declaration x) fun d => ?_
  refine h.track_bind (track_edit (h.appendPhi b x d.ty)) fun v => ?_
  refine h.track_bind (h.onTables _ ⟨fun _ => rfl, fun _ _ _ => rfl⟩) fun _ => ?_
  exact h.track_bind (h.christen x _) fun _ => h.pure _

theorem fillWith {read : BlockId → Track Operand} (hread : ∀ b, P Operand (tracking (read b)))
    (v : ValueId) : P Operand (tracking (Track.fillWith read v)) := by
  refine h.track_value (fun _ => rfl) fun x => ?_
  split
  · exact h.throw _
  · refine h.track_block (fun _ _ => rfl) fun y => ?_
    refine h.track_bind (h.onTables _ ⟨fun _ => rfl, fun _ _ _ => rfl⟩) fun _ => ?_
    refine h.track_bind (h.track_forM (fun q => ?_) y.preds) fun _ => ?_
    · exact h.track_bind (hread q) fun o => track_edit (h.pushIncoming v o q)
    · exact h.track_bind (h.onTables _ ⟨fun _ => rfl, fun _ _ _ => rfl⟩) fun _ => h.removeTrivial v

theorem readThrough {read : BlockId → Track Operand} (hread : ∀ b, P Operand (tracking (read b)))
    (x : VarId) (b : BlockId) : P Operand (tracking (Track.readThrough read x b)) := by
  refine h.track_bind (h.declaration x) fun d => h.track_block (fun _ _ => rfl) fun y => ?_
  split
  · split
    · exact h.pure _
    · exact hread _
    · refine h.track_bind (h.newPhi b x) fun v => ?_
      refine h.track_bind (h.onTables _ ⟨fun _ => rfl, fun _ _ _ => rfl⟩) fun _ => ?_
      exact h.fillWith hread v
  · refine h.track_bind (h.newPhi b x) fun v => ?_
    exact h.track_bind (h.onTables _ ⟨fun _ => rfl, fun _ _ _ => rfl⟩) fun _ => h.pure _

theorem readWithin (n : Nat) (x : VarId) (b : BlockId) :
    P Operand (tracking (Track.readWithin n x b)) := by
  induction n generalizing b with
  | zero =>
    unfold Track.readWithin
    refine h.track_look (fun _ _ => rfl) (fun _ => rfl) fun s => ?_
    split
    · exact track_edit (h.resolve _)
    · exact h.throw _
  | succ n ih =>
    unfold Track.readWithin
    refine h.track_look (fun _ _ => rfl) (fun _ => rfl) fun s => ?_
    split
    · exact track_edit (h.resolve _)
    · refine h.track_bind (h.readThrough ih x b) fun o => ?_
      refine h.track_bind (track_edit (h.resolve o)) fun o => ?_
      exact h.track_bind (h.onTables _ ⟨fun _ => rfl, fun _ _ _ => rfl⟩) fun _ => h.pure _

/-- **Reading a variable.** -/
theorem read (x : VarId) (b : BlockId) : P Operand (tracking (Track.read x b)) := by
  refine h.track_look (fun ρ s => ?_) (fun _ => rfl) fun s => h.readWithin _ x b
  rw [show (s.relabel ρ).graph.blocks.size = s.graph.blocks.size from Array.size_map]

/-- **Sealing a block.** -/
theorem sealBlock (b : BlockId) : P Unit (tracking (Track.sealBlock b)) := by
  have hfill : ∀ ps, P Unit (tracking (Track.fillPending b ps)) := by
    intro ps
    induction ps with
    | nil => exact h.pure _
    | cons q ps ih =>
      refine h.track_bind (h.onTables _ ⟨fun _ => rfl, fun _ _ _ => rfl⟩) fun _ => ?_
      refine h.track_bind (h.track_bind (h.fillWith (h.read q.1) q.2) fun _ => h.pure _) fun _ => ?_
      exact h.track_bind (h.onTables _ ⟨fun _ => rfl, fun _ _ _ => rfl⟩) fun _ => ih
  refine h.track_block (fun _ _ => rfl) fun y => ?_
  split
  · exact h.throw _
  · exact h.track_look (fun _ _ => rfl) (fun _ => rfl) fun s => h.track_bind (hfill _) fun _ =>
      track_edit (h.sealed b)

/-- A value is marked as made by a partial write. -/
theorem markPartial (x : VarId) (o : Operand) : P Unit (onBench (Build.markPartial x o)) := by
  cases o with
  | value v =>
    refine build_edit (h.updateValue v _ fun y n => ?_)
    dsimp only
    split <;> rfl
  | lit c => exact h.pure _
  | undef ty => exact h.pure _

end Compositional

end Lower

end BitFlow
