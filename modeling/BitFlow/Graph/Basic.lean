import BitFlow.Graph.Value
import BitFlow.Store.Multimap

/-!
# The graph

A graph holds blocks and values, and two tables beside them: who uses a value, and what a removed
value now stands for. Blocks and values are only ever added; `Graph.updateBlock` and
`Graph.updateValue` change one of them in place.

Main statements: `Graph.block?_updateBlock`, `Graph.value?_updateValue` and their companions -- an
update changes the named entry and no other; `Graph.users_addUser`, `Graph.users_removeUser`.
-/

namespace BitFlow

/-- A program in single assignment form: every value has one definition. -/
structure Graph where
  name : String
  entry : BlockId
  /-- The block that control reaches after the last statement, once the whole body is lowered. -/
  exit : Option BlockId
  blocks : Array Block
  values : Array Value
  /-- For each value those who refer to it. -/
  uses : Multimap ValueId User
  /-- For each removed value what it now stands for. -/
  forwards : Table ValueId Operand

namespace Graph

/-! ## 1. Look-up and update -/

/-- The graph of an empty program: an unsealed entry block. -/
def fresh (name : String) : Graph where
  name := name
  entry := ⟨0⟩
  exit := none
  blocks := #[Block.fresh ⟨0⟩ "entry" .live]
  values := #[]
  uses := .empty
  forwards := .empty

instance : Inhabited Graph := ⟨fresh ""⟩

/-- The block of that name. -/
def block? (g : Graph) (b : BlockId) : Option Block := g.blocks[b.index]?

/-- The value of that name. -/
def value? (g : Graph) (v : ValueId) : Option Value := g.values[v.index]?

/-- Those who refer to a value: values first, then branches. -/
def users (g : Graph) (v : ValueId) : List User := g.uses.image v

/-- The graph with one block changed. -/
def updateBlock (g : Graph) (b : BlockId) (f : Block → Block) : Graph :=
  { g with blocks := g.blocks.modify b.index f }

/-- The graph with one value changed. -/
def updateValue (g : Graph) (v : ValueId) (f : Value → Value) : Graph :=
  { g with values := g.values.modify v.index f }

/-- The graph with `u` among the users of `v`. -/
def addUser (g : Graph) (v : ValueId) (u : User) : Graph := { g with uses := g.uses.add v u }

/-- The graph without `u` among the users of `v`. -/
def removeUser (g : Graph) (v : ValueId) (u : User) : Graph := { g with uses := g.uses.remove v u }

/-- The graph with `u` among the users of each value that `ops` name. -/
def addUses (g : Graph) (u : User) (ops : List Operand) : Graph :=
  (ops.filterMap Operand.value?).foldl (fun g v => g.addUser v u) g

/-- The graph without `u` among the users of each value that `ops` name. -/
def removeUses (g : Graph) (u : User) (ops : List Operand) : Graph :=
  (ops.filterMap Operand.value?).foldl (fun g v => g.removeUser v u) g

/-- The graph in which the removed value `v` stands for `o`. -/
def setForward (g : Graph) (v : ValueId) (o : Operand) : Graph :=
  { g with forwards := g.forwards.insert v o }

/-- The name that the next block gets. -/
def nextBlock (g : Graph) : BlockId := ⟨g.blocks.size⟩

/-- The name that the next value gets. -/
def nextValue (g : Graph) : ValueId := ⟨g.values.size⟩

/-- The graph with one block more. -/
def pushBlock (g : Graph) (label : String) (kind : BlockKind) : Graph :=
  { g with blocks := g.blocks.push (.fresh g.nextBlock label kind) }

/-- The graph with one value more, owned by `b` and not yet listed there. -/
def pushValue (g : Graph) (ty : Ty) (origin : Origin) (b : BlockId) (kind : ValueKind) : Graph :=
  { g with values := g.values.push ⟨g.nextValue, ty, none, origin, some b, kind⟩ }

@[simp] theorem block?_updateBlock (g : Graph) (b c : BlockId) (f : Block → Block) :
    (g.updateBlock b f).block? c = if b = c then (g.block? c).map f else g.block? c := by
  cases b
  cases c
  simp [updateBlock, block?, Array.getElem?_modify]

@[simp] theorem value?_updateValue (g : Graph) (v w : ValueId) (f : Value → Value) :
    (g.updateValue v f).value? w = if v = w then (g.value? w).map f else g.value? w := by
  cases v
  cases w
  simp [updateValue, value?, Array.getElem?_modify]

@[simp] theorem value?_updateBlock (g : Graph) (b : BlockId) (f : Block → Block) (v : ValueId) :
    (g.updateBlock b f).value? v = g.value? v := rfl

@[simp] theorem block?_updateValue (g : Graph) (v : ValueId) (f : Value → Value) (b : BlockId) :
    (g.updateValue v f).block? b = g.block? b := rfl

@[simp] theorem users_updateBlock (g : Graph) (b : BlockId) (f : Block → Block) (v : ValueId) :
    (g.updateBlock b f).users v = g.users v := rfl

@[simp] theorem users_updateValue (g : Graph) (v : ValueId) (f : Value → Value) (w : ValueId) :
    (g.updateValue v f).users w = g.users w := rfl

theorem users_addUser (g : Graph) (v w : ValueId) (u u' : User) :
    u' ∈ (g.addUser v u).users w ↔ (v = w ∧ u' = u) ∨ u' ∈ g.users w :=
  Multimap.mem_image_add g.uses v w u u'

theorem users_removeUser (g : Graph) (v w : ValueId) (u u' : User) :
    u' ∈ (g.removeUser v u).users w ↔ u' ∈ g.users w ∧ ¬ (v = w ∧ u' = u) :=
  Multimap.mem_image_remove g.uses v w u u'

/-! ## 2. Removed values -/

/-- What an operand stands for after at most `n` forwards. -/
def resolveWithin (g : Graph) : Nat → Operand → Operand
  | n + 1, .value v =>
      match g.forwards.get? v with
      | some next => if next = .value v then .value v else g.resolveWithin n next
      | none => .value v
  | _, o => o

/-- What an operand stands for: forwards are followed to their end. An acyclic chain is no longer
    than the table of forwards, so as many steps reach its end. -/
def resolve (g : Graph) (o : Operand) : Operand := g.resolveWithin (g.forwards.size + 1) o

@[simp] theorem resolve_lit (g : Graph) (c : Literal) : g.resolve (.lit c) = .lit c := rfl

@[simp] theorem resolve_undef (g : Graph) (ty : Ty) : g.resolve (.undef ty) = .undef ty := rfl

/-! ## 3. Counts -/

/-- The values that some block lists. -/
def attached (g : Graph) : List Value := g.values.toList.filter Value.isAttached

/-- The phis that some block lists. -/
def attachedPhis (g : Graph) : List Value := g.attached.filter Value.isPhi

end Graph

end BitFlow
