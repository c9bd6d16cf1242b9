import BitFlow.Store.Table
import BitFlow.Yaml.Token.Stream

/-!
# Documents of mappings and scalars

`Yaml.parse?` reads a text as a tree of mappings and scalars. Mappings are written in block form,
one entry a line and nested by indentation, or in flow form between braces.

References are resolved by number. A name that is given to a node draws as its number the count of
different names given before, and a reference takes the number that its name has at that place. It
stands for the node for which that number was drawn last in the whole document: once a name has been
given twice, the next new name draws the same number and takes over its references. A document
therefore keeps its references, and `Yaml.Document.follow` replaces one by its node.

Each node and each entry takes a token at least, so the number of tokens bounds the recursion.
-/

namespace BitFlow

namespace Yaml

/-! ## 1. Nodes -/

/-- A tree of mappings and scalars. -/
inductive Node where
  | scalar (style : Style) (tag : Option String) (text : String)
  | mapping (entries : List (Node × Node))
  /-- The node for which a number was drawn last. -/
  | reference (number : Nat)

/-- The node for which nothing is written. -/
def Node.absent : Node := .scalar .plain none ""

instance : Inhabited Node := ⟨.absent⟩

/-- What a text describes. -/
structure Document where
  root : Node
  /-- The nodes that were given names, under the numbers drawn for them. Of two nodes the one that
      begins later stands first. -/
  named : List (Nat × Node)

/-- The node itself, or the one for which a reference stands. -/
def Document.follow (d : Document) : Node → Option Node
  | .reference number => d.named.lookup number
  | node => some node

/-! ## 2. The state -/

/-- The tokens that are still to be read, with the names and abbreviations that are known. -/
structure Feed where
  tokens : List Token
  /-- The numbers that the names have at present. -/
  numbers : Table (List Char) Nat
  /-- The nodes that were given names, under the numbers drawn for them, in the order in which they
      begin. A node is absent until it is complete. -/
  named : Array (Nat × Node)
  /-- The abbreviations for the beginnings of tags. -/
  handles : List (List Char × List Char)

/-- A computation that reads nodes. -/
abbrev Parse := StateT Feed Option

namespace Parse

/-- The next token, which stays. -/
def peek : Parse (Option Token) := return (← get).tokens.head?

/-- The next token taken. -/
def skip : Parse Unit := modify fun f => { f with tokens := f.tokens.drop 1 }

/-- Whether `t` comes next; if so it is taken. -/
def accept (t : Token) : Parse Bool := do
  if (← peek) = some t then
    skip
    pure true
  else pure false

/-! ## 3. Names and tags -/

/-- The reference to a name that was given before. -/
def reference (name : List Char) : Parse Node := do
  match (← get).numbers.get? name with
  | some number => pure (.reference number)
  | none => failure

/-- The name `anchor`, if there is one, for the node that `read` reads. It is given before the nodes
    inside that node are read. -/
def withAnchor (anchor : Option (List Char)) (read : Parse Node) : Parse Node := do
  match anchor with
  | none => read
  | some name =>
      let number := (← get).numbers.size
      let place := (← get).named.size
      modify fun f => { f with
        numbers := f.numbers.insert name number
        named := f.named.push (number, .absent) }
      let node ← read
      modify fun f => { f with named := f.named.modify place fun _ => (number, node) }
      pure node

/-- The abbreviations that need no directive. -/
def standardHandles : List (List Char × List Char) :=
  [(['!'], ['!']), (['!', '!'], "tag:yaml.org,2002:".toList)]

/-- The tag with its handle written out. -/
def fullTag (handle suffix : List Char) : Parse String := do
  if handle.isEmpty then pure (String.ofList suffix)
  else
    match ((← get).handles ++ standardHandles).lookup handle with
    | some start => pure (String.ofList (start ++ suffix))
    | none => failure

/-- The anchor that comes next, if one does. -/
def anchor : Parse (Option (List Char)) := do
  match ← peek with
  | some (.anchor name) =>
      skip
      pure (some name)
  | _ => pure none

/-- What is said about a node before it is written. -/
structure Properties where
  anchor : Option (List Char)
  tag : Option String

/-- A scalar of which nothing but its properties is written, if there are any. -/
def Properties.bare (about : Properties) : Parse Node :=
  if about.anchor.isSome || about.tag.isSome then pure (.scalar .plain about.tag "") else failure

/-- An anchor and a tag in either order, as far as they come next. -/
def properties : Parse Properties := do
  let first ← anchor
  match ← peek with
  | some (.tag handle suffix) =>
      skip
      let second ← if first.isNone then anchor else pure none
      pure ⟨first.or second, some (← fullTag handle suffix)⟩
  | _ => pure ⟨first, none⟩

/-! ## 4. Nodes -/

mutual

/-- A node; a mapping in block form only where `inBlock` says so. -/
def node (inBlock : Bool) : Nat → Parse Node
  | 0 => failure
  | n + 1 => do
      match ← peek with
      | some (.reference name) =>
          skip
          reference name
      | _ =>
          let about ← properties
          withAnchor about.anchor do
            match ← peek with
            | some (.scalar style text) =>
                skip
                pure (.scalar style about.tag (String.ofList text))
            | some .flowOpen =>
                skip
                return .mapping (← flowEntries true n)
            | some .blockOpen =>
                if inBlock then
                  skip
                  return .mapping (← blockEntries n)
                else about.bare
            | _ => about.bare

/-- A node, or the absent one if one of the tokens `ends` comes next or none does. -/
def optionalNode (inBlock : Bool) (ends : List Token) : Nat → Parse Node
  | 0 => failure
  | n + 1 => do
      match ← peek with
      | some t => if t ∈ ends then pure .absent else node inBlock n
      | none => failure

/-- The entries of a mapping in block form, up to its end. -/
def blockEntries : Nat → Parse (List (Node × Node))
  | 0 => failure
  | n + 1 => do
      if ← accept .blockClose then pure []
      else if ← accept .key then
        let ends := [Token.key, .value, .blockClose]
        let key ← optionalNode true ends n
        let value ← if ← accept .value then optionalNode true ends n else pure .absent
        return (key, value) :: (← blockEntries n)
      else failure

/-- The entries of a mapping in flow form, up to its closing brace; all but the first come after a
    comma. -/
def flowEntries (first : Bool) : Nat → Parse (List (Node × Node))
  | 0 => failure
  | n + 1 => do
      if ← accept .flowClose then pure []
      else
        if !first then
          if !(← accept .comma) then failure
        if ← accept .flowClose then pure []
        else
          let entry ← flowEntry n
          return entry :: (← flowEntries false n)

/-- An entry of a mapping in flow form. One that is not marked as a key has no value. -/
def flowEntry : Nat → Parse (Node × Node)
  | 0 => failure
  | n + 1 => do
      if ← accept .key then
        let key ← optionalNode false [.value, .comma, .flowClose] n
        let value ←
          if ← accept .value then optionalNode false [.comma, .flowClose] n else pure .absent
        pure (key, value)
      else
        let key ← node false n
        pure (key, .absent)

end

/-! ## 5. Documents -/

/-- The directives before a document: one version at most, which is known, and abbreviations of
    different handles. -/
def directives (versionSeen : Bool) : List Token → Parse Unit
  | .version major minor :: ts =>
      if versionSeen ∨ major ≠ 1 ∨ (minor ≠ 1 ∧ minor ≠ 2) then failure
      else do
        skip
        directives true ts
  | .abbreviation handle start :: ts => do
      if ((← get).handles.lookup handle).isSome then failure
      skip
      modify fun f => { f with handles := f.handles ++ [(handle, start)] }
      directives versionSeen ts
  | _ => pure ()

/-- Whether a token cannot belong to a document's node. -/
def isOutside : Token → Bool
  | .version _ _ | .abbreviation _ _ | .documentStart | .documentEnd => true
  | _ => false

/-- The node of the only document. Without directives and a marker it has to begin with a node;
    behind the marker nothing need be written. -/
def document : Parse Node := do
  let tokens := (← get).tokens
  let steps := 4 * tokens.length + 4
  match tokens with
  | [] => pure .absent
  | t :: _ =>
      if t = .documentEnd ∨ !isOutside t then node true steps
      else
        directives false tokens
        if ← accept .documentStart then
          match ← peek with
          | none => pure .absent
          | some t => if isOutside t then pure .absent else node true steps
        else failure

end Parse

/-- The document that some tokens describe; after it nothing but marks of its end may follow. -/
def Document.ofTokens? (tokens : List Token) : Option Document := do
  let (root, f) ← Parse.document.run ⟨tokens, .empty, #[], []⟩
  if f.tokens.all (· = .documentEnd) then some ⟨root, f.named.toList.reverse⟩ else none

/-- The document that a text describes; an empty text describes the absent node. -/
def parse? (s : String) : Option Document :=
  let cs := unifyBreaks s.toList
  if cs.all isAdmitted then (tokens? cs).bind Document.ofTokens? else none

end Yaml

end BitFlow
