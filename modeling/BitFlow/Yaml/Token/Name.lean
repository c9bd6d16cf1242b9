import BitFlow.Yaml.Token

/-!
# Anchors, tags and directives

The tokens that consist of names. A tag is a handle, which abbreviates its beginning, and a suffix.
An escaped null character closes the text of a suffix, or of what a handle abbreviates: the rest of
it is read and says nothing.
-/

namespace BitFlow

namespace Yaml

/-! ## 1. Anchors -/

/-- The name of an anchor, or of a reference to one, behind its indicator, and what follows it. -/
def anchorName? (cs : List Char) : Option (List Char × List Char) :=
  let name := cs.takeWhile isNameChar
  let rest := cs.dropWhile isNameChar
  if name.isEmpty then none
  else if atGap rest || rest.head?.any (· ∈ ['?', ':', ',', ']', '\x7d', '%', '@', '\x60']) then
    some (name, rest)
  else none

/-! ## 2. Tags -/

/-- The characters of a tag, percent signs apart. -/
def isTagChar (c : Char) : Bool :=
  isNameChar c ||
    c ∈ [';', '/', '?', ':', '@', '&', '=', '+', '$', '.', '!', '~', '*', '\x27', '(', ')']

/-- The number of octets of a character whose first octet is `n`. -/
def octetCount? (n : Nat) : Option Nat :=
  if n < 0x80 then some 1
  else if n < 0xc0 then none
  else if n < 0xe0 then some 2
  else if n < 0xf0 then some 3
  else if n < 0xf8 then some 4
  else none

/-- The characters of a tag, and what follows them. A percent sign introduces an octet in
    hexadecimal digits; `pending` more octets belong to the present character. Characters of several
    octets are not told apart. Commas and brackets belong to a tag where `wide` says so. -/
def tagText? (wide : Bool) (pending : Nat) : List Char → Option (List Char × List Char)
  | [] => if pending = 0 then some ([], []) else none
  | '%' :: a :: b :: cs => do
      let n := 16 * (← hexValue? a) + (← hexValue? b)
      if pending = 0 then
        let count ← octetCount? n
        let c := if count = 1 then Char.ofNat n else '\ufffd'
        (tagText? wide (count - 1) cs).map fun r => (c :: r.1, r.2)
      else if 0x80 ≤ n ∧ n < 0xc0 then tagText? wide (pending - 1) cs
      else none
  | c :: cs =>
      if c == '%' || pending ≠ 0 then none
      else if isTagChar c || (wide && c ∈ [',', '[', ']']) then
        (tagText? wide 0 cs).map fun r => (c :: r.1, r.2)
      else some ([], c :: cs)

/-- The part of a tag's text that counts, which is what stands before its first null character. -/
def beforeNull (text : List Char) : List Char := text.takeWhile (· ≠ '\x00')

/-- A handle: an exclamation mark, a name, and a second mark if there is one; and what follows. -/
def tagHandle? : List Char → Option (List Char × List Char)
  | '!' :: cs =>
      let name := cs.takeWhile isNameChar
      match cs.dropWhile isNameChar with
      | '!' :: rest => some ('!' :: name ++ ['!'], rest)
      | rest => some ('!' :: name, rest)
  | _ => none

/-- Whether a handle has both its marks. -/
def isWholeHandle (handle : List Char) : Bool :=
  decide (1 < handle.length) && handle.getLast? == some '!'

/-- A tag that begins with an exclamation mark: its handle, its suffix, and what follows. The tag
    of which the mark alone counts has no handle. -/
def tagParts? (cs : List Char) : Option (List Char × List Char × List Char) :=
  match cs with
  | '!' :: '<' :: cs => do
      let (suffix, rest) ← tagText? true 0 cs
      match suffix, rest with
      | [], _ => none
      | _, '>' :: rest => some ([], beforeNull suffix, rest)
      | _, _ => none
  | cs => do
      let (handle, rest) ← tagHandle? cs
      let (suffix, rest) ← tagText? false 0 rest
      if isWholeHandle handle then
        if suffix.isEmpty then none else some (handle, beforeNull suffix, rest)
      else
        let suffix := beforeNull (handle.drop 1 ++ suffix)
        if suffix.isEmpty then some ([], ['!'], rest) else some (['!'], suffix, rest)

/-- A tag, and what follows it: a gap, or in a flow collection a comma. -/
def tag? (inFlow : Bool) (cs : List Char) : Option (Token × List Char) := do
  let (handle, suffix, rest) ← tagParts? cs
  if atGap rest || (inFlow && rest.head? == some ',') then some (.tag handle suffix, rest)
  else none

/-! ## 3. Directives -/

/-- A number of nine digits at most, and what follows it. -/
def versionNumber? (cs : List Char) : Option (Nat × List Char) :=
  let digits := cs.takeWhile Char.isDigit
  if digits.isEmpty ∨ 9 < digits.length then none
  else
    some (digits.foldl (fun n d => 10 * n + (d.toNat - 48)) 0, cs.dropWhile Char.isDigit)

/-- A version behind its directive's name, and what follows it. -/
def version? (cs : List Char) : Option (Token × List Char) := do
  let (major, rest) ← versionNumber? (cs.dropWhile isBlank)
  match rest with
  | '.' :: rest => do
      let (minor, rest) ← versionNumber? rest
      some (.version major minor, rest)
  | _ => none

/-- An abbreviation behind its directive's name, and what follows it. -/
def abbreviation? (cs : List Char) : Option (Token × List Char) := do
  let (handle, rest) ← tagHandle? (cs.dropWhile isBlank)
  if handle ≠ ['!'] ∧ !isWholeHandle handle then none
  else
    match rest with
    | c :: _ =>
        if isBlank c then do
          let (start, rest) ← tagText? true 0 (rest.dropWhile isBlank)
          if start.isEmpty || !atGap rest then none
          else some (.abbreviation handle (beforeNull start), rest)
        else none
    | [] => none

/-- A directive behind its percent sign, and the line below it. -/
def directive? (cs : List Char) : Option (Token × List Char) := do
  let name := cs.takeWhile isNameChar
  let rest := cs.dropWhile isNameChar
  if !atGap rest then none
  else
    let (token, rest) ←
      if name = ['Y', 'A', 'M', 'L'] then version? rest
      else if name = ['T', 'A', 'G'] then abbreviation? rest
      else none
    some (token, ← nextLine? rest)

end Yaml

end BitFlow
