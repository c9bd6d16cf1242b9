import BitFlow.Yaml.Text

/-!
# Tokens

The tokens of a document. Blocks of mappings are told by indentation, so their beginnings and ends
are tokens without a text of their own, and so is the mark of a key whose colon comes later.
-/

namespace BitFlow

namespace Yaml

/-- How a scalar is written. -/
inductive Style where
  | plain
  | quoted
  | literal
  | folded
  deriving DecidableEq, Repr

/-- A token of a document. -/
inductive Token where
  /-- The version that a document is written for. -/
  | version (major minor : Nat)
  /-- An abbreviation for the beginnings of tags. -/
  | abbreviation (handle start : List Char)
  | documentStart
  | documentEnd
  | blockOpen
  | blockClose
  | flowOpen
  | flowClose
  | comma
  | key
  | value
  /-- A name for the node that follows. -/
  | anchor (name : List Char)
  /-- The node that was given a name. -/
  | reference (name : List Char)
  | tag (handle suffix : List Char)
  | scalar (style : Style) (text : List Char)
  deriving DecidableEq, Repr

end Yaml

end BitFlow
