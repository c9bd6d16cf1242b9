import BitFlow.Yaml.Scalar.Folding

/-!
# Plain scalars

A scalar without quotes. It ends before a colon that a gap follows, before a comment, before a
marker of documents, and outside flow collections before a line that is indented too little; inside
them also before a mark of the collection. The white space behind it is consumed with it.
-/

namespace BitFlow

namespace Yaml

/-- Whether a plain scalar begins here; also with a dash, and outside flow collections with a
    question mark or a colon, that stands before something visible. -/
def startsPlain (inFlow : Bool) : List Char → Bool
  | [] => false
  | c :: cs =>
      !(isBlank c || isBreak c || isIndicator c) ||
        ((c == '-' || (!inFlow && (c == '?' || c == ':'))) && !atGap cs)

/-- A plain scalar that has been read. -/
structure Plain where
  text : List Char
  rest : List Char
  /-- Whether a line break was consumed behind it. -/
  broken : Bool

/-- Whether a plain scalar ends at a visible character behind white space. -/
def endsAtGap (inFlow : Bool) (least column : Nat) (cs : List Char) : Bool :=
  (!inFlow && decide (column < least)) || (column == 0 && atMarker cs) || cs.head? == some '#'

/-- A plain scalar, or the rest of it behind the gap `g`, from `column` on. Its lines are indented
    by `least` at least, and no tab stands for such indentation. In a flow collection a colon right
    before a mark is refused. -/
def plain (inFlow : Bool) (least : Nat) (g : Gap) (column : Nat) : List Char → Option Plain
  | [] => some ⟨[], [], g.isBroken⟩
  | c :: cs =>
      if isBreak c then plain inFlow least (g.addBreak c) 0 cs
      else if isBlank c then
        if c == '\t' && g.isBroken && column < least then none
        else plain inFlow least (g.addBlank c) (column + 1) cs
      else if g ≠ .none ∧ endsAtGap inFlow least column (c :: cs) then
        some ⟨[], c :: cs, g.isBroken⟩
      else if inFlow && c == ':' && cs.head?.any (fun d => isFlowMark d || d == '?') then none
      else if (c == ':' && atGap cs) || (inFlow && isFlowMark c) then
        some ⟨[], c :: cs, g.isBroken⟩
      else
        (plain inFlow least .none (column + 1) cs).map fun p =>
          { p with text := g.text ++ c :: p.text }

end Yaml

end BitFlow
