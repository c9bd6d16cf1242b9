import BitFlow.Yaml.Scalar.Folding

/-!
# Quoted scalars

A scalar between apostrophes, where two apostrophes stand for one, and a scalar between quotation
marks, where a backslash introduces an escape. Both may run over several lines; none of the lines
may begin with a marker of documents.
-/

namespace BitFlow

namespace Yaml

/-! ## 1. Escapes -/

/-- The character whose number is written in hexadecimal digits. -/
def hexChar? (ds : List Char) : Option Char := do
  let values ← ds.mapM hexValue?
  let n := values.foldl (fun n d => 16 * n + d) 0
  if n.isValidChar then some (Char.ofNat n) else none

/-- The character that one letter after a backslash stands for. -/
def escape? : Char → Option Char
  | '0' => some '\x00'
  | 'a' => some '\x07'
  | 'b' => some '\x08'
  | 't' => some '\t'
  | '\t' => some '\t'
  | 'n' => some '\n'
  | 'v' => some '\x0b'
  | 'f' => some '\x0c'
  | 'r' => some '\r'
  | 'e' => some '\x1b'
  | ' ' => some ' '
  | '\x22' => some '\x22'
  | '/' => some '/'
  | '\\' => some '\\'
  | 'N' => some '\u0085'
  | '_' => some '\u00a0'
  | 'L' => some '\u2028'
  | 'P' => some '\u2029'
  | _ => none

/-! ## 2. The two forms -/

/-- The rest of a scalar after a character and the gap before it. -/
def after (g : Gap) (c : Char) (rest : Option (List Char × List Char)) :
    Option (List Char × List Char) :=
  rest.map fun r => (g.text ++ c :: r.1, r.2)

/-- A scalar between apostrophes, of which the opening one has been read: its text and what follows
    it. `margin` says that a line begins here. -/
def singleQuoted (g : Gap) (margin : Bool) : List Char → Option (List Char × List Char)
  | [] => none
  | '\x27' :: '\x27' :: cs => after g '\x27' (singleQuoted .none false cs)
  | '\x27' :: cs => some (g.text, cs)
  | c :: cs =>
      if isBreak c then singleQuoted (g.addBreak c) true cs
      else if isBlank c then singleQuoted (g.addBlank c) false cs
      else if margin && atMarker (c :: cs) then none
      else after g c (singleQuoted .none false cs)

/-- A scalar between quotation marks, of which the opening one has been read: its text and what
    follows it. `margin` says that a line begins here. An escaped line break is dropped. -/
def doubleQuoted (g : Gap) (margin : Bool) : List Char → Option (List Char × List Char)
  | [] => none
  | '\x22' :: cs => some (g.text, cs)
  | '\\' :: 'x' :: a :: b :: cs => do
      let c ← hexChar? [a, b]
      after g c (doubleQuoted .none false cs)
  | '\\' :: 'u' :: a :: b :: c :: d :: cs => do
      let x ← hexChar? [a, b, c, d]
      after g x (doubleQuoted .none false cs)
  | '\\' :: 'U' :: a :: b :: c :: d :: e :: f :: h :: i :: cs => do
      let x ← hexChar? [a, b, c, d, e, f, h, i]
      after g x (doubleQuoted .none false cs)
  | '\\' :: e :: cs =>
      if isBreak e then
        (doubleQuoted (.breaks [] []) true cs).map fun r => (g.text ++ r.1, r.2)
      else do
        let c ← escape? e
        after g c (doubleQuoted .none false cs)
  | c :: cs =>
      if isBreak c then doubleQuoted (g.addBreak c) true cs
      else if isBlank c then doubleQuoted (g.addBlank c) false cs
      else if margin && atMarker (c :: cs) then none
      else after g c (doubleQuoted .none false cs)

end Yaml

end BitFlow
