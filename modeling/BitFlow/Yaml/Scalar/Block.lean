import BitFlow.Yaml.Scalar.Folding

/-!
# Block scalars

A scalar that consists of the indented lines below its header. The header says whether its line
breaks are folded, what becomes of the breaks at its end, and perhaps how far it is indented; else
the first line that is not empty decides that.
-/

namespace BitFlow

namespace Yaml

/-! ## 1. The header -/

/-- What becomes of the line breaks at the end of a block scalar. -/
inductive Chomping where
  | strip
  /-- The first one is kept. -/
  | clip
  | keep
  deriving DecidableEq, Repr

/-- The header of a block scalar. -/
structure BlockHeader where
  chomping : Chomping
  /-- How much further than its surroundings the scalar is indented. -/
  increment : Option Nat
  deriving DecidableEq, Repr

/-- The sign for what becomes of line breaks at the end, and what follows it. -/
def chompingSign : List Char → Chomping × List Char
  | '+' :: cs => (.keep, cs)
  | '-' :: cs => (.strip, cs)
  | cs => (.clip, cs)

/-- The digit for the indentation, if there is one, and what follows it; it is not zero. -/
def incrementDigit? : List Char → Option (Option Nat × List Char)
  | c :: cs =>
      if c == '0' then none
      else if c.isDigit then some (some (c.toNat - 48), cs)
      else some (none, c :: cs)
  | [] => some (none, [])

/-- The header of a block scalar behind its indicator, and the lines below it. The sign and the
    digit stand in either order. -/
def blockHeader? (cs : List Char) : Option (BlockHeader × List Char) := do
  let (chomping, afterSign) := chompingSign cs
  let (increment, afterDigit) ← incrementDigit? afterSign
  let (chomping, rest) :=
    if chomping = .clip ∧ increment.isSome then chompingSign afterDigit
    else (chomping, afterDigit)
  some (⟨chomping, increment⟩, ← nextLine? rest)

/-! ## 2. Indentation -/

/-- The empty lines before a line of a block scalar. -/
structure Leading where
  breaks : List Char
  /-- The widest indentation that was met. -/
  widest : Nat
  /-- The column at which the line begins. -/
  column : Nat
  rest : List Char

/-- The empty lines from `column` on, and the indentation of the line below them. It is at most
    `limit`, if that is known, and no tab stands for it. -/
def leading (limit : Option Nat) (column widest : Nat) : List Char → Option Leading
  | [] => some ⟨[], max widest column, column, []⟩
  | c :: cs =>
      if c == ' ' && limit.all (column < ·) then leading limit (column + 1) widest cs
      else if c == '\t' && limit.all (column < ·) then none
      else if isBreak c then
        (leading limit 0 (max widest column) cs).map fun l => { l with breaks := c :: l.breaks }
      else some ⟨[], max widest column, column, c :: cs⟩

/-! ## 3. Lines -/

/-- Where the reading of a block scalar stands. -/
inductive BlockState where
  /-- Inside a line, which begins with a blank or not. -/
  | line (blankFirst : Bool)
  /-- Behind a line and the breaks after it, in the indentation at `column`. -/
  | gap (blankFirst : Bool) (first more : List Char) (column : Nat)
  deriving DecidableEq, Repr

/-- What stands between two lines of a block scalar. A folded break is a space, but not beside a
    line that begins with a blank. -/
def betweenLines (folded blankFirst blankNext : Bool) (first more : List Char) : List Char :=
  if folded && !blankFirst && !blankNext then foldBreaks first more else first ++ more

/-- The lines of a block scalar that were read. -/
structure BlockLines where
  text : List Char
  /-- The break after the last line. -/
  first : List Char
  /-- The breaks after that. -/
  more : List Char
  rest : List Char

/-- The lines of a block scalar that is indented by `width`. -/
def blockLines (folded : Bool) (width : Nat) (state : BlockState) : List Char → Option BlockLines
  | [] =>
      match state with
      | .line _ => some ⟨[], [], [], []⟩
      | .gap _ first more _ => some ⟨[], first, more, []⟩
  | c :: cs =>
      match state with
      | .line blankFirst =>
          if isBreak c then blockLines folded width (.gap blankFirst [c] [] 0) cs
          else (blockLines folded width state cs).map fun l => { l with text := c :: l.text }
      | .gap blankFirst first more column =>
          if c == ' ' && column < width then
            blockLines folded width (.gap blankFirst first more (column + 1)) cs
          else if c == '\t' && column < width then none
          else if isBreak c then
            blockLines folded width (.gap blankFirst first (more ++ [c]) 0) cs
          else if column = width then
            let between := betweenLines folded blankFirst (isBlank c) first more
            (blockLines folded width (.line (isBlank c)) cs).map fun l =>
              { l with text := between ++ c :: l.text }
          else some ⟨[], first, more, c :: cs⟩

/-- A block scalar behind its indicator, inside block collections that indent it by `least` at
    least: its text and what follows it. -/
def blockScalar? (folded : Bool) (least : Nat) (cs : List Char) :
    Option (List Char × List Char) := do
  let (header, rest) ← blockHeader? cs
  let fixed := header.increment.map fun n => least - 1 + n
  let start ← leading fixed 0 0 rest
  let width := fixed.getD (max start.widest (max least 1))
  let lines ← blockLines folded width (.gap false [] start.breaks start.column) start.rest
  let tail :=
    match header.chomping with
    | .strip => []
    | .clip => lines.first
    | .keep => lines.first ++ lines.more
  some (lines.text ++ tail, lines.rest)

end Yaml

end BitFlow
