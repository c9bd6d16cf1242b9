import BitFlow.Yaml.Scalar.Block
import BitFlow.Yaml.Scalar.Plain
import BitFlow.Yaml.Scalar.Quoted
import BitFlow.Yaml.Token.Name

/-!
# From text to tokens

`Yaml.tokens?` cuts a text into tokens. Whether a scalar is a key is known only at the colon behind
it, so the place of a possible key is kept, one for each open flow collection and one for the block
around them, and the mark of the key is put there when the colon comes. A key and its colon stand on
one line, at most `keyReach` columns apart.

Blocks of mappings are open at ascending columns. A key further right opens one, and a token further
left closes those to the right of it. Sequences are refused.
-/

namespace BitFlow

namespace Yaml

/-! ## 1. The state -/

/-- How far behind the beginning of a key its colon may stand. -/
def keyReach : Nat := 1024

/-- Where a key may have begun. -/
structure Candidate where
  /-- The number of tokens before it. -/
  index : Nat
  place : Place
  /-- Whether nothing but a key may stand there. -/
  required : Bool
  deriving DecidableEq, Repr

/-- The state of the reading. -/
structure Lexer where
  rest : List Char
  place : Place
  tokens : Array Token
  /-- The columns of the open blocks, the innermost first. -/
  blocks : List Nat
  /-- The possible key in the innermost flow collection, or in the block if none is open. -/
  candidate : Option Candidate
  /-- The possible keys around the open flow collections, the innermost first. -/
  outer : List (Option Candidate)
  /-- Whether a key may begin here. -/
  keyAllowed : Bool

namespace Lexer

/-- The beginning of a text. -/
def start (cs : List Char) : Lexer := ⟨cs, ⟨0, 0⟩, #[], [], none, [], true⟩

/-- Whether a flow collection is open. -/
def inFlow (s : Lexer) : Bool := !s.outer.isEmpty

/-- The least column of what belongs to the innermost block. -/
def least (s : Lexer) : Nat :=
  match s.blocks with
  | [] => 0
  | column :: _ => column + 1

/-- The state with the text read up to `rest`. -/
def upTo (s : Lexer) (rest : List Char) : Lexer :=
  { s with rest := rest, place := s.place.past (s.rest.take (s.rest.length - rest.length)) }

/-- The state with one token more. -/
def push (s : Lexer) (t : Token) : Lexer := { s with tokens := s.tokens.push t }

/-- The state with a token put before those from `index` on. -/
def insert (s : Lexer) (index : Nat) (t : Token) : Lexer :=
  { s with
    tokens := (s.tokens.extract 0 index).push t ++ s.tokens.extract index s.tokens.size }

/-- The state in which a key may begin here, or may not. -/
def allowKey (s : Lexer) (allowed : Bool) : Lexer := { s with keyAllowed := allowed }

/-! ## 2. Blocks -/

/-- A block at `column`, opened before the tokens from `index` on, unless one is open there or
    further right. -/
def openBlock (s : Lexer) (column index : Nat) : Lexer :=
  if s.inFlow || !s.blocks.head?.all (· < column) then s
  else { s.insert index .blockOpen with blocks := column :: s.blocks }

/-- The blocks to the right of `least - 1` closed. -/
def closeBlocks (s : Lexer) (least : Nat) : Lexer :=
  if s.inFlow then s
  else
    let closed := s.blocks.takeWhile (least ≤ ·)
    { s with
      tokens := s.tokens ++ (closed.map fun _ => Token.blockClose).toArray
      blocks := s.blocks.dropWhile (least ≤ ·) }

/-! ## 3. Possible keys -/

/-- The innermost possible key given up; a required one is not. -/
def dropCandidate? (s : Lexer) : Option Lexer :=
  if s.candidate.any Candidate.required then none else some { s with candidate := none }

/-- A possible key here, if one is allowed. -/
def saveCandidate? (s : Lexer) : Option Lexer :=
  if s.keyAllowed then do
    let s ← s.dropCandidate?
    let required := !s.inFlow && s.blocks.head? == some s.place.column
    some { s with candidate := some ⟨s.tokens.size, s.place, required⟩ }
  else some s

/-- Whether a colon at `place` is too far behind a possible key. -/
def isStale (place : Place) (k : Candidate) : Bool :=
  k.place.line ≠ place.line || decide (k.place.column + keyReach < place.column)

/-- The possible keys that are still within reach; a required one is. -/
def dropStale? (s : Lexer) : Option Lexer :=
  let stale := isStale s.place
  if (s.candidate :: s.outer).any (·.any fun k => stale k && k.required) then none
  else
    some { s with
      candidate := s.candidate.filter (!stale ·)
      outer := s.outer.map (·.filter (!stale ·)) }

/-! ## 4. White space -/

/-- What follows white space and comments, and whether a key may begin there. A line break allows
    one outside flow collections. There a tab is no white space where a key may begin. A byte order
    mark is skipped at the beginning of a line, which `margin` tells. -/
def skipGap (inFlow : Bool) (comment margin keyAllowed : Bool) : List Char → List Char × Bool
  | [] => ([], keyAllowed)
  | c :: cs =>
      if isBreak c then skipGap inFlow false true (keyAllowed || !inFlow) cs
      else if comment then skipGap inFlow true false keyAllowed cs
      else if margin && c == '\ufeff' then skipGap inFlow false false keyAllowed cs
      else if c == ' ' || (c == '\t' && (inFlow || !keyAllowed)) then
        skipGap inFlow false false keyAllowed cs
      else if c == '#' then skipGap inFlow true false keyAllowed cs
      else (c :: cs, keyAllowed)

/-- The state at the next token. -/
def toToken (s : Lexer) : Lexer :=
  let (rest, allowed) := skipGap s.inFlow false (s.place.column == 0) s.keyAllowed s.rest
  (s.upTo rest).allowKey allowed

/-! ## 5. Single tokens -/

/-- A token that stands between documents; it closes all blocks. -/
def between? (s : Lexer) (t : Token) (rest : List Char) : Option Lexer := do
  let s ← (s.closeBlocks 0).dropCandidate?
  some (((s.allowKey false).upTo rest).push t)

/-- The opening brace of a flow mapping. -/
def flowOpen? (s : Lexer) (rest : List Char) : Option Lexer := do
  let s ← s.saveCandidate?
  let s := { s with candidate := none, outer := s.candidate :: s.outer }
  some (((s.allowKey true).upTo rest).push .flowOpen)

/-- The closing brace of a flow mapping. -/
def flowClose? (s : Lexer) (rest : List Char) : Option Lexer := do
  let s ← s.dropCandidate?
  match s.outer with
  | [] => none
  | k :: outer =>
      let s := { s with candidate := k, outer := outer }
      some (((s.allowKey false).upTo rest).push .flowClose)

/-- The comma between entries of a flow mapping. -/
def comma? (s : Lexer) (rest : List Char) : Option Lexer := do
  let s ← s.dropCandidate?
  some (((s.allowKey true).upTo rest).push .comma)

/-- The question mark before a key. -/
def explicitKey? (s : Lexer) (rest : List Char) : Option Lexer :=
  if s.inFlow || s.keyAllowed then do
    let s ← (s.openBlock s.place.column s.tokens.size).dropCandidate?
    some (((s.allowKey (!s.inFlow)).upTo rest).push .key)
  else none

/-- The colon before a value: behind a possible key, or alone. -/
def value? (s : Lexer) (rest : List Char) : Option Lexer :=
  match s.candidate with
  | some k =>
      let s := (s.insert k.index .key).openBlock k.place.column k.index
      some ((({ s with candidate := none }.allowKey false).upTo rest).push .value)
  | none =>
      if s.inFlow || s.keyAllowed then
        let s := s.openBlock s.place.column s.tokens.size
        some (((s.allowKey (!s.inFlow)).upTo rest).push .value)
      else none

/-- A token with which a key may begin. -/
def content? (s : Lexer) (t : Token) (rest : List Char) : Option Lexer := do
  let s ← s.saveCandidate?
  some (((s.allowKey false).upTo rest).push t)

/-- An anchor or a reference to one. -/
def named? (s : Lexer) (make : List Char → Token) (cs : List Char) : Option Lexer := do
  let (name, rest) ← anchorName? cs
  s.content? (make name) rest

/-- A plain scalar. A key may follow it on a line below. -/
def plain? (s : Lexer) : Option Lexer := do
  let p ← plain s.inFlow s.least .none s.place.column s.rest
  let s ← s.content? (.scalar .plain p.text) p.rest
  some (s.allowKey p.broken)

/-- A block scalar behind its indicator. -/
def block? (s : Lexer) (folded : Bool) (cs : List Char) : Option Lexer := do
  let s ← s.dropCandidate?
  let (text, rest) ← blockScalar? folded s.least cs
  let style := if folded then Style.folded else .literal
  some (((s.allowKey true).upTo rest).push (.scalar style text))

/-! ## 6. The next token -/

/-- The token that begins with the character `c`, before the text `cs`. -/
def token? (s : Lexer) (c : Char) (cs : List Char) : Option Lexer :=
  let indicates (x : Char) : Bool := c == x && (s.inFlow || atGap cs)
  if c == '\x7b' then s.flowOpen? cs
  else if c == '\x7d' then s.flowClose? cs
  else if c == ',' then s.comma? cs
  else if indicates '?' then s.explicitKey? cs
  else if indicates ':' then s.value? cs
  else if c == '*' then s.named? .reference cs
  else if c == '&' then s.named? .anchor cs
  else if c == '!' then do
    let (t, rest) ← tag? s.inFlow (c :: cs)
    s.content? t rest
  else if c == '|' && !s.inFlow then s.block? false cs
  else if c == '>' && !s.inFlow then s.block? true cs
  else if c == '\x27' then do
    let (text, rest) ← singleQuoted .none false cs
    s.content? (.scalar .quoted text) rest
  else if c == '\x22' then do
    let (text, rest) ← doubleQuoted .none false cs
    s.content? (.scalar .quoted text) rest
  else if startsPlain s.inFlow (c :: cs) then s.plain?
  else none

/-- The next token at the beginning of a line: a directive, a marker of documents, or any other. -/
def marginToken? (s : Lexer) (c : Char) (cs : List Char) : Option Lexer :=
  if c == '%' then do
    let (t, rest) ← directive? cs
    s.between? t rest
  else
    match afterMarker? '-' (c :: cs), afterMarker? '.' (c :: cs) with
    | some rest, _ => s.between? .documentStart rest
    | none, some rest => s.between? .documentEnd rest
    | none, none => s.token? c cs

/-- The tokens of the rest of a text, of which `n` at most are read. -/
def run? : Nat → Lexer → Option (List Token)
  | 0, _ => none
  | n + 1, s => do
      let s ← s.toToken.dropStale?
      let s := s.closeBlocks (s.place.column + 1)
      match s.rest with
      | [] => do
          let s ← (s.closeBlocks 0).dropCandidate?
          some s.tokens.toList
      | c :: cs =>
          if s.place.column = 0 then (s.marginToken? c cs).bind (run? n)
          else (s.token? c cs).bind (run? n)

end Lexer

/-- The tokens of a text. Each of them takes a character at least, so the text has no more. -/
def tokens? (cs : List Char) : Option (List Token) := Lexer.run? (cs.length + 1) (.start cs)

end Yaml

end BitFlow
