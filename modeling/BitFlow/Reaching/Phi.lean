import BitFlow.Graph.Check
import BitFlow.Reaching.Basic

/-!
# Phis: when one is superfluous, and its removal

A phi is trivial when all its operands other than itself are one and the same. It is then replaced
everywhere by that operand, and the phis that used it are looked at again, since they may have
become trivial in turn.

Each step of such a cascade detaches a phi and continues only with attached ones, so no cascade is
deeper than the store of values is long.
-/

namespace BitFlow

/-! ## 1. Trivial phis -/

/-- The one operand among `ops` other than `self`, or the undefined one if there is none; `none` if
    there are two. -/
def soleOperand (self undefined : Operand) (ops : List Operand) : Option Operand :=
  match ops.filter (· ≠ self) with
  | [] => some undefined
  | o :: rest => if rest.all (· = o) then some o else none

/-- What a phi stands for if it is trivial. One that has not yet an operand for each predecessor
    never is. -/
def Graph.trivialReplacement (g : Graph) (v : ValueId) : Except Fault (Option Operand) := do
  let x ← g.requireValue v
  match x.block with
  | none => pure none
  | some b =>
      match x.kind with
      | .instr _ => throw (.violated (.notPhi v))
      | .phi p =>
          let block ← g.requireBlock b
          if p.incoming.length = block.preds.length then
            pure (soleOperand (.value v) (.undef x.ty) (p.incoming.map Prod.fst))
          else pure none

namespace Track

/-- The answer of a check of the graph, or its fault. -/
def ask {α : Type} (q : Graph → Except Fault α) : Track α := do
  match q (← get).graph with
  | .ok a => pure a
  | .error e => throw e

/-! ## 2. Removal -/

/-- `o` in place of the phi `v` everywhere: in its users, in the tables, and for later look-ups.
    The answer lists those who referred to `v`. -/
def retire (v : ValueId) (o : Operand) : Track (List User) := do
  let former ← Edit.replaceUses v o
  Edit.detach v
  onGraph (modify (·.setForward v o))
  onTables fun r => (r.reroute v o).countRemoved
  pure former

/-- A look at a former user of the retired phi `v`: an attached phi whose operands are complete is
    handed to `remove`. -/
def recheck (remove : ValueId → Track Operand) (v : ValueId) : User → Track Unit
  | .branch _ => pure ()
  | .value u => do
      if u = v ∨ u ∈ (← get).reaching.filling then
        pure ()
      else
        let x ← Edit.value u
        if x.isPhi && x.isAttached then
          discard (remove u)

/-- Removal of a phi if it is trivial, with a cascade of depth `n` at most. -/
def removeTrivialWithin : Nat → ValueId → Track Operand
  | 0, _ => throw .endless
  | n + 1, v => do
      if (← Edit.value v).isAttached then
        match ← ask (·.trivialReplacement v) with
        | none => pure (.value v)
        | some o =>
            let former ← retire v o
            former.forM (recheck (removeTrivialWithin n) v)
            Edit.resolve o
      else
        Edit.resolve (.value v)

/-- Removal of a phi if it is trivial; the answer is the operand that now stands for it. -/
def removeTrivial (v : ValueId) : Track Operand := do
  removeTrivialWithin ((← get).graph.values.size + 1) v

end Track

end BitFlow
