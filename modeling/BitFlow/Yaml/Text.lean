/-!
# Characters and places

The classes of characters that the syntax tells apart, and places in a text. Every way to end a line
is a line feed here, except that the line and the paragraph separator stay what they are: both end a
line, and both are kept where a line break becomes part of a scalar.

Main definitions: `Yaml.isBreak`, `Yaml.Place.past`.
-/

namespace BitFlow

namespace Yaml

/-! ## 1. Characters -/

/-- Spaces and tabs. -/
def isBlank (c : Char) : Bool := c == ' ' || c == '\t'

/-- The characters that end a line. -/
def isBreak (c : Char) : Bool := c == '\n' || c == '\u2028' || c == '\u2029'

/-- The characters of names: letters, digits, underscores and dashes. -/
def isNameChar (c : Char) : Bool := c.isAlphanum || c == '_' || c == '-'

/-- The characters that bound entries of a flow collection. -/
def isFlowMark (c : Char) : Bool := c ∈ [',', '[', ']', '\x7b', '\x7d']

/-- The characters that begin something other than a plain scalar. -/
def isIndicator (c : Char) : Bool :=
  isFlowMark c ||
    c ∈ ['-', '?', ':', '#', '&', '*', '!', '|', '>', '\x27', '\x22', '%', '@', '\x60']

/-- Whether a character may stand in a document: tabs, line breaks and all that is not a control
    character. -/
def isAdmitted (c : Char) : Bool :=
  let n := c.toNat
  n == 0x09 || n == 0x0a || n == 0x0d || (0x20 ≤ n && n ≤ 0x7e) || n == 0x85 ||
    (0xa0 ≤ n && n ≤ 0xfffd) || 0x10000 ≤ n

/-- The value of a hexadecimal digit. -/
def hexValue? (c : Char) : Option Nat :=
  if '0' ≤ c ∧ c ≤ '9' then some (c.toNat - 48)
  else if 'a' ≤ c ∧ c ≤ 'f' then some (c.toNat - 87)
  else if 'A' ≤ c ∧ c ≤ 'F' then some (c.toNat - 55)
  else none

/-- Carriage returns, alone or before a line feed, and next-line characters as line feeds. -/
def unifyBreaks : List Char → List Char
  | '\r' :: '\n' :: cs => '\n' :: unifyBreaks cs
  | c :: cs => (if c == '\r' || c == '\u0085' then '\n' else c) :: unifyBreaks cs
  | [] => []

/-! ## 2. What comes next -/

/-- Whether a blank, a line break or the end comes next. -/
def atGap : List Char → Bool
  | [] => true
  | c :: _ => isBlank c || isBreak c

/-- Whether a line break or the end comes next. -/
def atLineEnd : List Char → Bool
  | [] => true
  | c :: _ => isBreak c

/-- What follows a marker of three characters `c`, if one comes next. -/
def afterMarker? (c : Char) : List Char → Option (List Char)
  | x :: y :: z :: rest => if x = c ∧ y = c ∧ z = c ∧ atGap rest then some rest else none
  | _ => none

/-- Whether a marker of the beginning or the end of a document comes next. -/
def atMarker (cs : List Char) : Bool := (afterMarker? '-' cs).isSome || (afterMarker? '.' cs).isSome

/-- What follows blanks and a comment. -/
def skipTrailer (cs : List Char) : List Char :=
  match cs.dropWhile isBlank with
  | '#' :: rest => rest.dropWhile fun c => !isBreak c
  | rest => rest

/-- The next line, if nothing but blanks and a comment stand in the rest of this one. -/
def nextLine? (cs : List Char) : Option (List Char) :=
  match skipTrailer cs with
  | [] => some []
  | c :: rest => if isBreak c then some rest else none

/-! ## 3. Places -/

/-- A place in a text: the number of lines before it, and of characters before it on its line. -/
structure Place where
  line : Nat
  column : Nat
  deriving DecidableEq, Repr, Inhabited

namespace Place

/-- The place past one character. -/
def next (p : Place) (c : Char) : Place :=
  if isBreak c then ⟨p.line + 1, 0⟩ else ⟨p.line, p.column + 1⟩

/-- The place past a piece of text. -/
def past (p : Place) (cs : List Char) : Place := cs.foldl next p

end Place

end Yaml

end BitFlow
