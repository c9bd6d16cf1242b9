import BitFlow.Proofs.Reaching.Kept
import BitFlow.Proofs.World.Exec
import Mathlib.Data.List.Induction

/-!
# Running a graph

A run of a graph goes from block to block. Where a block is entered its phis take, all at once,
their operands for the edge that was followed; then its instructions are performed one after the
other; and at its end control goes on along the first branch whose condition holds. A run is over at
a block in which no branch is taken.

The tape of a run holds what the values hold and what was done at the ports.

Main definitions: `Graph.Emits`, `Graph.Halts`. Main statement: `World.trace_performAll`.
-/

namespace BitFlow

/-! ## 1. Instructions -/

/-- What values hold, and what was done at the ports. -/
structure Tape where
  vals : ValueId → Literal
  trace : List Event

namespace World

variable (w : World)

/-- What an operand holds. -/
def operand (vals : ValueId → Literal) : Operand → Literal
  | .value v => vals v
  | .lit c => c
  | .undef ty => w.undef ty

/-- The result of an instruction: the datum that arrives at a port, or what the operator
    computes. -/
def result (t : Tape) (i : OwnedInstr) : Literal :=
  match i.instr.portUse with
  | some ⟨q, .read⟩ => w.input q i.ty (readsOf q t.trace)
  | _ => w.apply i.instr.op (i.instr.operands.map (w.operand t.vals)) i.ty

/-- What an instruction with result `c` does at a port. -/
def eventsOf (vals : ValueId → Literal) (i : OwnedInstr) (c : Literal) : List Event :=
  i.instr.portUse.toList.map fun u => u.event c (i.instr.operands.map (w.operand vals))

/-- The tape after the instruction of that name; `code` tells which one it is. -/
def perform (code : ValueId → Option OwnedInstr) (t : Tape) (v : ValueId) : Tape :=
  match code v with
  | none => t
  | some i =>
      ⟨Function.update t.vals v (w.result t i), t.trace ++ w.eventsOf t.vals i (w.result t i)⟩

/-- The tape after some instructions. -/
def performAll (code : ValueId → Option OwnedInstr) (t : Tape) (vs : List ValueId) : Tape :=
  vs.foldl (w.perform code) t

/-- Whether a branch is taken. -/
def takes (vals : ValueId → Literal) (br : Branch) : Bool :=
  match br.cond with
  | none => true
  | some o => (w.operand vals o).isTrue

end World

/-! ## 2. Blocks -/

/-- A run that has come to the end of a block. -/
structure Station where
  block : BlockId
  tape : Tape

namespace Graph

variable (g : Graph) (w : World)

/-- What values hold when `b` is entered from `source`. -/
def entering (source : Option BlockId) (b : BlockId) (vals : ValueId → Literal) :
    ValueId → Literal := fun v =>
  match g.phi? v with
  | some p =>
      if p.block = b then
        match p.incoming.find? fun e => some e.2 = source with
        | some e => w.operand vals e.1
        | none => vals v
      else vals v
  | none => vals v

/-- The block `b` from its entry to its end. -/
def visit (source : Option BlockId) (b : BlockId) (t : Tape) : Station :=
  ⟨b, w.performAll g.instr? ⟨g.entering w source b t.vals, t.trace⟩ (g.instrs b)⟩

/-- The first block. Values that have not been computed are undefined. -/
def setOut : Station :=
  g.visit w none g.entry ⟨fun v => w.undef (((g.value? v).map Value.ty).getD .bit), []⟩

/-- On to the next block, if there is one. -/
def onward (s : Station) : Option Station :=
  ((g.branches s.block).find? (w.takes s.tape.vals)).map fun br =>
    g.visit w (some s.block) br.target s.tape

/-- The run after that many steps; one that is over stays where it is. -/
def stationAt : Nat → Station
  | 0 => g.setOut w
  | n + 1 => (g.onward w (stationAt n)).getD (stationAt n)

/-- **Some run of the graph begins with the events `t`.** -/
def Emits (t : List Event) : Prop := ∃ n, t <+: (g.stationAt w n).tape.trace

/-- **The graph comes to an end with the events `t`.** -/
def Halts (t : List Event) : Prop :=
  ∃ n, g.onward w (g.stationAt w n) = none ∧ (g.stationAt w n).tape.trace = t

end Graph

/-! ## 3. What instructions leave -/

namespace World

variable {w : World} {code : ValueId → Option OwnedInstr} {t : Tape} {u v : ValueId}
  {vs pre post : List ValueId}

theorem performAll_append (t : Tape) (pre post : List ValueId) :
    w.performAll code t (pre ++ post) = w.performAll code (w.performAll code t pre) post :=
  List.foldl_append

theorem performAll_snoc (t : Tape) (pre : List ValueId) (v : ValueId) :
    w.performAll code t (pre ++ [v]) = w.perform code (w.performAll code t pre) v :=
  performAll_append t pre [v]

theorem perform_of_code {i : OwnedInstr} (h : code v = some i) :
    w.perform code t v =
      ⟨Function.update t.vals v (w.result t i), t.trace ++ w.eventsOf t.vals i (w.result t i)⟩ := by
  unfold perform
  rw [h]

theorem vals_perform_of_ne (h : u ≠ v) : (w.perform code t v).vals u = t.vals u := by
  unfold perform
  split
  · rfl
  · exact Function.update_of_ne h _ _

/-- What is not among the instructions keeps its content. -/
theorem vals_performAll (h : u ∉ vs) : (w.performAll code t vs).vals u = t.vals u := by
  induction vs generalizing t with
  | nil => rfl
  | cons v vs ih =>
    rw [List.mem_cons, not_or] at h
    exact (ih h.2).trans (vals_perform_of_ne h.1)

theorem operand_congr {vals vals' : ValueId → Literal} {o : Operand}
    (h : ∀ u, o = .value u → vals' u = vals u) : w.operand vals' o = w.operand vals o := by
  cases o with
  | value u => exact h u rfl
  | lit c => rfl
  | undef ty => rfl

/-- The instructions stand in the order of their names, each once, and refer to older values. -/
structure InOrder (code : ValueId → Option OwnedInstr) (vs : List ValueId) : Prop where
  ordered : vs.Pairwise fun v w => v.index < w.index
  older : ∀ {v i o u}, code v = some i → o ∈ i.instr.operands → o = .value u → u.index < v.index

/-- What an instruction refers to is not changed by it or by later ones. -/
theorem InOrder.not_mem (h : InOrder code (pre ++ v :: post)) (hu : u.index < v.index) :
    u ∉ v :: post := by
  have hv := List.pairwise_cons.1 (List.pairwise_append.1 h.ordered).2.1
  intro hm
  rcases List.mem_cons.1 hm with rfl | hm
  · exact Nat.lt_irrefl _ hu
  · have := hv.1 u hm
    omega

theorem InOrder.operand (h : InOrder code (pre ++ v :: post)) {i : OwnedInstr} (hv : code v = some i)
    {o : Operand} (ho : o ∈ i.instr.operands) :
    w.operand (w.performAll code t (pre ++ v :: post)).vals o =
      w.operand (w.performAll code t pre).vals o := by
  refine operand_congr fun u hu => ?_
  rw [performAll_append]
  exact vals_performAll (h.not_mem (h.older hv ho hu))

/-- The result of an instruction stays. -/
theorem InOrder.vals (h : InOrder code (pre ++ v :: post)) {i : OwnedInstr} (hv : code v = some i) :
    (w.performAll code t (pre ++ v :: post)).vals v = w.result (w.performAll code t pre) i := by
  have hpost : v ∉ post := fun hm => Nat.lt_irrefl _
    ((List.pairwise_cons.1 (List.pairwise_append.1 h.ordered).2.1).1 v hm)
  rw [performAll_append]
  refine (vals_performAll (t := w.perform code (w.performAll code t pre) v) hpost).trans ?_
  rw [perform_of_code hv]
  exact Function.update_self _ _ _

/-- What instructions do at ports, where `vals` is what values hold in the end. -/
def events (w : World) (code : ValueId → Option OwnedInstr) (vals : ValueId → Literal)
    (vs : List ValueId) : List Event :=
  vs.flatMap fun v => (code v).toList.flatMap fun i => w.eventsOf vals i (vals v)

/-- **What instructions do at ports is told by what values hold in the end.** -/
theorem trace_performAll (h : InOrder code (pre ++ post)) :
    (w.performAll code t pre).trace =
      t.trace ++ w.events code (w.performAll code t (pre ++ post)).vals pre := by
  induction pre using List.reverseRecOn generalizing post with
  | nil => exact (List.append_nil _).symm
  | append_singleton pre v ih =>
    rw [List.append_assoc] at h ⊢
    rw [List.singleton_append] at h ⊢
    have hpre := ih h
    unfold events at hpre ⊢
    rw [performAll_snoc, List.flatMap_append, ← List.append_assoc, ← hpre, List.flatMap_singleton]
    cases hv : code v with
    | none =>
      unfold perform
      rw [hv]
      exact (List.append_nil _).symm
    | some i =>
      have hargs : i.instr.operands.map (w.operand (w.performAll code t (pre ++ v :: post)).vals) =
          i.instr.operands.map (w.operand (w.performAll code t pre).vals) :=
        List.map_congr_left fun o ho => h.operand hv ho
      rw [perform_of_code hv]
      unfold eventsOf
      simp only [Option.toList_some, List.flatMap_singleton]
      rw [hargs, h.vals hv]

end World

end BitFlow
