import BitFlow.Fault

/-!
# Values, blocks and their parts

A value is an instruction or a phi and belongs to one block; one without a block has been removed.
A block lists its phis, its instructions and its outgoing branches, which are tried in order.

Main statements: `Value.operands_replace` -- replacing an operand acts on the list of operands
slot by slot; `Block.mem_successors` -- the successors of a block are the targets of its branches.
-/

namespace BitFlow

/-! ## 1. Operands -/

/-- What an instruction, a phi or a branch condition refers to. -/
inductive Operand where
  | value (v : ValueId)
  | lit (c : Literal)
  /-- The content of a variable that no path has written. -/
  | undef (ty : Ty)
  deriving DecidableEq, Repr

namespace Operand

instance : Inhabited Operand := ⟨.undef .bit⟩

/-- The literal that an operand is, if it is one. -/
def literal? : Operand → Option Literal
  | .lit c => some c
  | _ => none

/-- The value that an operand names, if it names one. -/
def value? : Operand → Option ValueId
  | .value v => some v
  | _ => none

/-- The written form of an operand. -/
def text : Operand → String
  | .value v => v.text
  | .lit c => c.text
  | .undef ty => "undef:" ++ ty.text

/-- `b` in place of `a`. -/
def replace (a b o : Operand) : Operand := if o = a then b else o

end Operand

/-! ## 2. Values -/

/-- The port that an instruction touches, and how. -/
structure PortUse where
  port : PortId
  access : Access
  deriving DecidableEq, Repr

/-- An instruction: an operator applied to operands, possibly a port access. -/
structure Instr where
  op : Opcode
  operands : List Operand
  portUse : Option PortUse
  deriving DecidableEq, Repr

/-- A phi: for each predecessor of its block the operand that it takes when entered from there. -/
structure Phi where
  var : VarId
  incoming : List (Operand × BlockId)
  deriving DecidableEq, Repr

/-- The two kinds of value. -/
inductive ValueKind where
  | instr (i : Instr)
  | phi (p : Phi)
  deriving DecidableEq, Repr

/-- What a value was made for. -/
inductive Origin where
  | expression
  | phi (x : VarId)
  /-- A whole variable with one part replaced. -/
  | partialWrite (x : VarId)
  | port (p : PortId)
  deriving DecidableEq, Repr

/-- A value of the graph. -/
structure Value where
  id : ValueId
  ty : Ty
  name : Option String
  origin : Origin
  /-- The block that lists the value; `none` once it has been removed. -/
  block : Option BlockId
  kind : ValueKind
  deriving DecidableEq, Repr

namespace Value

/-- Whether a value is a phi. -/
def isPhi (v : Value) : Bool :=
  match v.kind with
  | .phi _ => true
  | .instr _ => false

/-- Whether some block lists the value. -/
def isAttached (v : Value) : Bool := v.block.isSome

/-- The operands of a value in order. -/
def operands (v : Value) : List Operand :=
  match v.kind with
  | .instr i => i.operands
  | .phi p => p.incoming.map Prod.fst

/-- The value with `b` in place of each operand `a`. -/
def replace (a b : Operand) (v : Value) : Value :=
  { v with
    kind :=
      match v.kind with
      | .instr i => .instr { i with operands := i.operands.map (Operand.replace a b) }
      | .phi p =>
          .phi { p with incoming := p.incoming.map fun s => (Operand.replace a b s.1, s.2) } }

@[simp] theorem operands_replace (a b : Operand) (v : Value) :
    (v.replace a b).operands = v.operands.map (Operand.replace a b) := by
  rcases v with ⟨id, ty, name, origin, block, kind⟩
  cases kind with
  | instr i => rfl
  | phi p => simp [replace, operands, Function.comp_def]

@[simp] theorem isPhi_replace (a b : Operand) (v : Value) : (v.replace a b).isPhi = v.isPhi := by
  rcases v with ⟨id, ty, name, origin, block, kind⟩
  cases kind <;> rfl

end Value

/-! ## 3. Users -/

/-- Who refers to a value: another value, or the branch conditions of a block. -/
inductive User where
  | value (v : ValueId)
  | branch (b : BlockId)
  deriving DecidableEq, Repr

/-- Values come before branches; both are listed in the order of their places. -/
instance : Ranked User :=
  ⟨fun
    | .value v => (0, v.index)
    | .branch b => (1, b.index)⟩

/-- The written form of a user. -/
def User.text : User → String
  | .value v => v.text
  | .branch b => b.text

/-! ## 4. Blocks -/

/-- Whether a block is part of the program or hosts code that nothing reaches. -/
inductive BlockKind where
  | live
  | unreachable
  deriving DecidableEq, Repr

/-- The written form of a kind. -/
def BlockKind.text : BlockKind → String
  | .live => "Live"
  | .unreachable => "Unreachable"

/-- An outgoing edge; without a condition it is always taken. -/
structure Branch where
  cond : Option Operand
  target : BlockId
  deriving DecidableEq, Repr

/-- A basic block. -/
structure Block where
  id : BlockId
  label : String
  kind : BlockKind
  phis : List ValueId
  instrs : List ValueId
  /-- The sources of the incoming edges, each once, in the order of their first edge. -/
  preds : List BlockId
  branches : List Branch
  /-- Whether every incoming edge is known. -/
  isSealed : Bool
  deriving DecidableEq, Repr

namespace Block

/-- A new block: unsealed, without values and edges. -/
def fresh (id : BlockId) (label : String) (kind : BlockKind) : Block :=
  ⟨id, label, kind, [], [], [], [], false⟩

/-- Whether a block hosts code that nothing reaches. -/
def isUnreachable (b : Block) : Bool := b.kind == .unreachable

/-- The distinct targets of some branches, in order, leaving out those in `seen`. -/
def distinctTargets (seen : List BlockId) : List Branch → List BlockId
  | [] => []
  | br :: brs =>
      if br.target ∈ seen then distinctTargets seen brs
      else br.target :: distinctTargets (br.target :: seen) brs

/-- The distinct targets of the branches, in order. -/
def successors (b : Block) : List BlockId := distinctTargets [] b.branches

/-- The target of the first branch without a condition. -/
def defaultTarget (b : Block) : Option BlockId :=
  (b.branches.find? fun br => br.cond.isNone).map Branch.target

/-- The predecessors with `p` among them. -/
def addPred (b : Block) (p : BlockId) : Block :=
  if p ∈ b.preds then b else { b with preds := b.preds ++ [p] }

theorem mem_distinctTargets (seen : List BlockId) (brs : List Branch) (t : BlockId) :
    t ∈ distinctTargets seen brs ↔ t ∉ seen ∧ ∃ br ∈ brs, br.target = t := by
  induction brs generalizing seen with
  | nil => simp [distinctTargets]
  | cons br brs ih =>
    unfold distinctTargets
    split
    · rename_i h
      rw [ih]
      constructor
      · rintro ⟨hs, br', hm, ht⟩
        exact ⟨hs, br', List.mem_cons_of_mem _ hm, ht⟩
      · rintro ⟨hs, br', hm, ht⟩
        rcases List.mem_cons.1 hm with rfl | hm
        · exact absurd (ht ▸ h) hs
        · exact ⟨hs, br', hm, ht⟩
    · rename_i h
      rw [List.mem_cons, ih]
      constructor
      · rintro (rfl | ⟨hs, br', hm, ht⟩)
        · exact ⟨h, br, List.mem_cons_self, rfl⟩
        · exact ⟨fun hc => hs (List.mem_cons_of_mem _ hc), br', List.mem_cons_of_mem _ hm, ht⟩
      · rintro ⟨hs, br', hm, ht⟩
        by_cases he : t = br.target
        · exact Or.inl he
        · rcases List.mem_cons.1 hm with rfl | hm
          · exact absurd ht.symm he
          · exact Or.inr ⟨by simp [he, hs], br', hm, ht⟩

theorem mem_successors (b : Block) (t : BlockId) :
    t ∈ b.successors ↔ ∃ br ∈ b.branches, br.target = t := by
  simp [successors, mem_distinctTargets]

@[simp] theorem mem_preds_addPred (b : Block) (p q : BlockId) :
    q ∈ (b.addPred p).preds ↔ q = p ∨ q ∈ b.preds := by
  unfold addPred
  split
  · rename_i h
    constructor
    · exact Or.inr
    · rintro (rfl | hq)
      · exact h
      · exact hq
  · simp [or_comm]

end Block

end BitFlow
