import BitFlow.Yaml.Text

/-!
# Folding of line breaks

Inside a scalar that runs over several lines a single line break counts as a space, and the first of
several is dropped. Only a line feed is folded: other breaks are kept, and so is everything after
them. Blanks around line breaks are dropped.

Main definitions: `Yaml.foldBreaks`, `Yaml.Gap`.
-/

namespace BitFlow

namespace Yaml

/-- The text that a first line break and those after it stand for; `first` is empty where the break
    was taken back. -/
def foldBreaks (first more : List Char) : List Char :=
  if first = ['\n'] then (if more.isEmpty then [' '] else more) else first ++ more

/-- The white space since the last visible character of a scalar. -/
inductive Gap where
  /-- Blanks on one line. -/
  | blanks (cs : List Char)
  /-- A line break, and the breaks after it. -/
  | breaks (first more : List Char)
  deriving DecidableEq, Repr

namespace Gap

/-- No white space. -/
def none : Gap := .blanks []

/-- The text that a gap stands for. -/
def text : Gap → List Char
  | .blanks cs => cs
  | .breaks first more => foldBreaks first more

/-- A gap followed by a blank. -/
def addBlank (c : Char) : Gap → Gap
  | .blanks cs => .blanks (cs ++ [c])
  | .breaks first more => .breaks first more

/-- A gap followed by a line break. -/
def addBreak (c : Char) : Gap → Gap
  | .blanks _ => .breaks [c] []
  | .breaks first more => .breaks first (more ++ [c])

/-- Whether a gap contains a line break. -/
def isBroken : Gap → Bool
  | .blanks _ => false
  | .breaks _ _ => true

end Gap

end Yaml

end BitFlow
