/-!
# Operators

The closed set of operators of the language and of the graph. Operators on expressions and
operators of instructions share the three families `Unary`, `Binary` and `Relation`; an
instruction has seven more forms.
-/

namespace BitFlow

/-- Operators with one operand. -/
inductive Unary where
  | not
  | neg
  deriving DecidableEq, Repr

/-- Arithmetic, bitwise and shift operators. -/
inductive Binary where
  | add
  | sub
  | mul
  | div
  | rem
  | and
  | or
  | xor
  | shl
  | shr
  deriving DecidableEq, Repr

/-- Comparisons. -/
inductive Relation where
  | eq
  | ne
  | lt
  | le
  | gt
  | ge
  deriving DecidableEq, Repr

/-- What an instruction computes from its operands. -/
inductive Opcode where
  | unary (op : Unary)
  | binary (op : Binary)
  | compare (op : Relation)
  /-- All operands joined, the first in the most significant bits. -/
  | concat
  /-- One bit of the first operand, at the position given by the second. -/
  | index
  /-- The bits from `lsb` up to `msb` of the operand. -/
  | slice (msb lsb : Nat)
  /-- The second operand if the first is true, else the third. -/
  | select
  /-- The operand under the instruction's own type. -/
  | cast
  /-- A port access: no operand for a read, the datum for a write. -/
  | assign
  deriving DecidableEq, Repr

/-! ## 1. Shifts -/

/-- The operators whose second operand is a shift amount, of a type of its own. -/
def Binary.isShift : Binary → Bool
  | .shl | .shr => true
  | _ => false

/-! ## 2. Names -/

/-- The name of a unary operator in the text of an instruction. -/
def Unary.mnemonic : Unary → String
  | .not => "not"
  | .neg => "neg"

/-- The name of a binary operator in the text of an instruction. -/
def Binary.mnemonic : Binary → String
  | .add => "add"
  | .sub => "sub"
  | .mul => "mul"
  | .div => "div"
  | .rem => "rem"
  | .and => "and"
  | .or => "or"
  | .xor => "xor"
  | .shl => "shl"
  | .shr => "shr"

/-- The name of a comparison in the text of an instruction. -/
def Relation.mnemonic : Relation → String
  | .eq => "eq"
  | .ne => "ne"
  | .lt => "lt"
  | .le => "le"
  | .gt => "gt"
  | .ge => "ge"

/-- The name of an operator in the text of an instruction. -/
def Opcode.mnemonic : Opcode → String
  | .unary op => op.mnemonic
  | .binary op => op.mnemonic
  | .compare op => op.mnemonic
  | .concat => "concat"
  | .index => "index"
  | .slice _ _ => "slice"
  | .select => "select"
  | .cast => "cast"
  | .assign => "assign"

/-- The name of a unary operator in the description of an expression. -/
def Unary.title : Unary → String
  | .not => "Not"
  | .neg => "Neg"

/-- The name of a binary operator in the description of an expression. -/
def Binary.title : Binary → String
  | .add => "Add"
  | .sub => "Sub"
  | .mul => "Mul"
  | .div => "Div"
  | .rem => "Mod"
  | .and => "BitAnd"
  | .or => "BitOr"
  | .xor => "BitXor"
  | .shl => "LShift"
  | .shr => "RShift"

/-- The name of a comparison in the description of an expression. -/
def Relation.title : Relation → String
  | .eq => "Eq"
  | .ne => "NotEq"
  | .lt => "Lt"
  | .le => "LtE"
  | .gt => "Gt"
  | .ge => "GtE"

/-- Every operator of one operand. -/
def Unary.all : List Unary := [.not, .neg]

/-- Every operator of two operands. -/
def Binary.all : List Binary :=
  [.add, .sub, .mul, .div, .rem, .and, .or, .xor, .shl, .shr]

/-- Every comparison. -/
def Relation.all : List Relation := [.eq, .ne, .lt, .le, .gt, .ge]

theorem Unary.mem_all (op : Unary) : op ∈ Unary.all := by cases op <;> decide

theorem Binary.mem_all (op : Binary) : op ∈ Binary.all := by cases op <;> decide

theorem Relation.mem_all (op : Relation) : op ∈ Relation.all := by cases op <;> decide

/-- The unary operator that a description calls `s`. -/
def Unary.ofTitle? (s : String) : Option Unary := Unary.all.find? (·.title == s)

/-- The binary operator that a description calls `s`. -/
def Binary.ofTitle? (s : String) : Option Binary := Binary.all.find? (·.title == s)

/-- The comparison that a description calls `s`. -/
def Relation.ofTitle? (s : String) : Option Relation := Relation.all.find? (·.title == s)

/-- The operator, slices apart, that an instruction's text calls `s`. -/
def Opcode.ofMnemonic? (s : String) : Option Opcode :=
  (Unary.all.map Opcode.unary ++ Binary.all.map Opcode.binary ++
    Relation.all.map Opcode.compare ++
    [Opcode.concat, .index, .select, .cast, .assign]).find? (·.mnemonic == s)

end BitFlow
