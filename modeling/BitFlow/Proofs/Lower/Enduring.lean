import BitFlow.Proofs.Action.Pervasive
import BitFlow.Proofs.Bench
import BitFlow.Proofs.Graph.Survey

/-!
# Invariants of whole lowerings

An invariant of graph and tables that sees little of the values is in danger in few places of a
lowering: where a variable is read or a block sealed, where a new content is recorded, and where a
value gets a name. If it lasts there it lasts throughout, faults included.

Main statement: `Lower.Enduring.reached` -- the invariant holds of what a lowering leaves, with an
answer or with a fault.
-/

namespace BitFlow

/-- The state that the lowering of a program leaves, with an answer or with a fault. -/
def Program.reached (p : Program) (s : Settings) : Lowering :=
  after (Lower.program p) (.start p s)

variable {α β : Type} {k : Value → β} {I : Tracked → Prop}

namespace Lower

/-! ## 1. The parts -/

/-- The action keeps the invariant of graph and tables, whichever way it ends. -/
def Endures (I : Tracked → Prop) (α : Type) (x : Lower α) : Prop :=
  Yields (fun l => I l.tracked) (fun _ => True) x

theorem endures_tracking {x : Track α} (hx : Yields I (fun _ => True) x) :
    Endures I α (tracking x) := by
  have hbench : Yields (fun s : Bench => I s.tracked) (fun _ => True) (Build.onTracked x) :=
    .focus (fun _ hs => hs) (fun _ _ _ ht => ht) hx
  exact .focus (fun _ hl => hl) (fun _ _ _ hs => hs) hbench

theorem endures_editing (hI : Tracked.Surveys k I) {x : Edit α} (hx : Edit.Spares k x) :
    Endures I α (editing x) := by
  rw [← tracking_onGraph]
  exact endures_tracking (hI.yields hx)

/-- **What is done at the cursor** keeps an invariant that sees little of the values. -/
theorem emissive_endures (hI : Tracked.Surveys k I) : Emissive (Endures I) where
  pure _ := .pure trivial
  throw := .throw
  bind hx hf := hx.bind fun a _ => hf a
  look _ _ hf := .look fun l _ => hf l
  block _ hf := (endures_editing hI (Edit.spares_block _)).bind fun y _ => hf y
  insertInstr b position ty origin i := by
    rw [← tracking_onGraph]
    exact endures_tracking (hI.yields_insertInstr b position ty origin i)
  setCursor _ := .modify fun _ hl => hl

theorem endures_markPartial (hI : Tracked.Surveys k I) (x : VarId) (o : Operand) :
    Endures I Unit (onBench (Build.markPartial x o)) := by
  cases o with
  | value v =>
    refine Emissive.build_edit (endures_editing hI (Edit.spares_updateValue v fun y => ?_))
    split
    · exact hI.overlooks.origin y _
    · rfl
  | lit c => exact .pure trivial
  | undef ty => exact .pure trivial

/-- **The invariant lasts** where a variable is read, a block sealed, a new content recorded or a
    value named. -/
structure Enduring (k : Value → β) (I : Tracked → Prop) : Prop extends Tracked.Surveys k I where
  read : ∀ x b, Endures I Operand (tracking (Track.read x b))
  sealBlock : ∀ b, Endures I Unit (tracking (Track.sealBlock b))
  recorded : ∀ {s}, I s → ∀ x b o, I (s.recorded x b o)
  christened : ∀ {s}, I s → ∀ x o, I (s.christened x o)

/-! ## 2. Whole lowerings -/


/-- **Everything that a lowering is made of** keeps an invariant that lasts. -/
theorem pervasive_endures (hI : Enduring k I) : Pervasive (Endures I) where
  toEmissive := emissive_endures hI.toSurveys
  read := hI.read
  markPartial := endures_markPartial hI.toSurveys
  record x b o := endures_tracking (.modify fun _ hs => hI.recorded hs x b o)
  christen x o := endures_tracking (.modify fun _ hs => hI.christened hs x o)
  observe _ hf := .look fun l _ => hf l
  sealBlock := hI.sealBlock
  addBlock label kind := endures_editing hI.toSurveys (Edit.spares_addBlock label kind)
  addEdge b cond c := endures_editing hI.toSurveys (Edit.spares_addEdge b cond c)
  updateBlock b f := endures_editing hI.toSurveys (Edit.spares_updateBlock b f)
  setExit _ := endures_editing hI.toSurveys (.modify fun _ => rfl)
  books _ _ := .modify fun _ hl => hl

/-- **An invariant that lasts holds of what a lowering leaves**, if it holds at the start. -/
theorem Enduring.reached (hI : Enduring k I) {p : Program} {s : Settings}
    (hstart : I (Lowering.start p s).tracked) : I (p.reached s).tracked := by
  have hleaves := (pervasive_endures hI).program p _ hstart
  exact (after_iff _ _ fun l : Lowering => I l.tracked).2
    (hleaves.mono (fun _ _ hl => hl) fun _ _ hl => hl.1)

end Lower

end BitFlow
