import BitFlow.Store.Ranked

/-!
# Names of blocks and values

Blocks and values are named by their place in the graph's stores.
-/

namespace BitFlow

/-- A block, by its place in the store of blocks. -/
structure BlockId where
  index : Nat
  deriving DecidableEq, Repr, Inhabited

/-- A value, by its place in the store of values. -/
structure ValueId where
  index : Nat
  deriving DecidableEq, Repr, Inhabited

/-- The written form of a block's name. -/
def BlockId.text (b : BlockId) : String := "bb" ++ toString b.index

/-- The written form of a value's name. -/
def ValueId.text (v : ValueId) : String := "%" ++ toString v.index

/-- The written form of a list of blocks. -/
def BlockId.listText (bs : List BlockId) : String :=
  "[" ++ ", ".intercalate (bs.map fun b => "BlockId(" ++ toString b.index ++ ")") ++ "]"

instance : Ranked BlockId := ⟨fun b => (b.index, 0)⟩

end BitFlow
