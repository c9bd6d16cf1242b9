import BitFlow.Settings.Basic
import BitFlow.Yaml.Node

/-!
# Settings as a document

Settings are written as a document with a version, an optional preset, and single settings that
differ from it. `Settings.ofText` reads such a document and `Settings.render` writes one in which
every setting is given.
-/

namespace BitFlow

namespace Yaml

/-! ## 1. Plain scalars that are numbers or truth values -/

/-- The number that digits of a base denote, if there is at least one and each is a digit. -/
def digitsValue? (base : Nat) (ds : List Char) : Option Nat := do
  if ds.isEmpty then none
  else
    let values ← ds.mapM fun d => (hexValue? d).filter (· < base)
    some (values.foldl (fun n d => base * n + d) 0)

/-- Whether some digits begin with a needless zero; such a scalar is a text and no number. -/
def hasLeadingZero : List Char → Bool
  | '0' :: d :: ds => (d :: ds).all Char.isDigit
  | _ => false

/-- The number that a plain scalar denotes: hexadecimal, octal or binary with the usual marks, else
    decimal. -/
def natural? (cs : List Char) : Option Nat :=
  let unsigned :=
    match cs with
    | '+' :: ds => ds
    | ds => ds
  match unsigned with
  | '0' :: 'x' :: ds => digitsValue? 16 ds
  | '0' :: 'o' :: ds => digitsValue? 8 ds
  | '0' :: 'b' :: ds => digitsValue? 2 ds
  | ds => if hasLeadingZero ds then none else digitsValue? 10 ds

/-- The truth value that a plain scalar denotes. -/
def truth? (s : String) : Option Bool :=
  if s ∈ ["true", "True", "TRUE"] then some true
  else if s ∈ ["false", "False", "FALSE"] then some false
  else none

/-- The tags of the nodes that settings tell apart. -/
def nullTag : String := "tag:yaml.org,2002:null"

@[inherit_doc nullTag] def boolTag : String := "tag:yaml.org,2002:bool"

@[inherit_doc nullTag] def intTag : String := "tag:yaml.org,2002:int"

/-- Whether a plain scalar stands for nothing. -/
def isNullText (s : String) : Bool := s ∈ ["~", "null", "Null", "NULL"]

namespace Node

/-- The text of a scalar that may denote something else than a text: a plain one, or a literal one
    with the tag of what it denotes. -/
def denoting? (tag : String) : Node → Option String
  | .scalar .plain _ text => some text
  | .scalar .literal given text => if given = some tag then some text else none
  | _ => none

/-- A node as a number that a 32-bit word holds. -/
def word? (node : Node) : Option Nat := do
  (natural? (← node.denoting? intTag).toList).filter (· ≤ wordMax)

/-- A node as a truth value. -/
def bool? (node : Node) : Option Bool := do
  truth? (← node.denoting? boolTag)

/-- A node as a text. -/
def text? : Node → Option String
  | .scalar _ _ text => some text
  | _ => none

/-- Whether a node stands for nothing; `none` if it says so by its tag and does not. -/
def isNull? : Node → Option Bool
  | .scalar .plain none text => some (text.isEmpty || isNullText text)
  | .scalar .plain (some tag) text =>
      if tag = nullTag then (if isNullText text then some true else none) else some false
  | _ => some false

end Node

/-- The entries of a mapping whose keys are texts, with the references among them replaced; nothing
    at all is a mapping without entries. -/
def Document.entries? (d : Document) : Node → Option (List (String × Node))
  | .mapping entries => entries.mapM fun e => do
      let key ← (← d.follow e.1).text?
      some (key, ← d.follow e.2)
  | .scalar .plain _ text => if text.isEmpty then some [] else none
  | _ => none

end Yaml

open Yaml (Document Node)

/-! ## 2. Fields -/

/-- The value of an optional field, read by `read`. A null value counts as none. The outer `none` is
    that of a value that `read` refuses. -/
def optionalField {α : Type} (read : Node → Option α) (entries : List (String × Node))
    (key : String) : Option (Option α) :=
  match entries.lookup key with
  | none => some none
  | some node => do
      if ← node.isNull? then some none else (read node).map some

/-- Whether all keys are among `known` and none occurs twice. -/
def keysFit (known : List String) (entries : List (String × Node)) : Bool :=
  let keys := entries.map Prod.fst
  keys.all (· ∈ known) && decide keys.Nodup

/-- Single settings that differ from a preset. -/
structure Overrides where
  verify : Option Bool
  nameValues : Option Bool
  literalLimit : Option Nat
  deriving DecidableEq, Repr

/-- The settings with what the overrides give. -/
def Overrides.apply (o : Overrides) (s : Settings) : Settings :=
  ⟨o.verify.getD s.verify, o.nameValues.getD s.nameValues, o.literalLimit.getD s.literalLimit⟩

/-- The overrides that a node of a document holds. -/
def Overrides.ofNode? (d : Document) (node : Node) : Option Overrides := do
  let entries ← d.entries? node
  if keysFit ["verify_on_finalize", "name_values", "max_literal_width"] entries then
    let verify ← optionalField Node.bool? entries "verify_on_finalize"
    let nameValues ← optionalField Node.bool? entries "name_values"
    let literalLimit ← optionalField Node.word? entries "max_literal_width"
    some ⟨verify, nameValues, literalLimit⟩
  else none

/-- The content of a document of settings. -/
structure SettingsDocument where
  version : Option Nat
  preset : Option String
  overrides : Option Overrides
  deriving DecidableEq, Repr

/-- What a document says about settings. -/
def SettingsDocument.ofDocument? (d : Document) : Option SettingsDocument := do
  let entries ← d.entries? d.root
  if keysFit ["version", "preset", "lowering"] entries then
    let version ← optionalField Node.word? entries "version"
    let preset ← optionalField Node.text? entries "preset"
    let overrides ← optionalField (Overrides.ofNode? d) entries "lowering"
    some ⟨version, preset, overrides⟩
  else none

/-! ## 3. Reading -/

/-- The version of the documents that are read. -/
def documentVersion : Nat := 1

/-- The settings that a document gives: those of its preset, or of the standard one, with its
    overrides. The version is looked at first, then the preset, and last the range. -/
def SettingsDocument.settings (d : SettingsDocument) : Except SettingsFault Settings := do
  match d.version with
  | none => throw .missingVersion
  | some v => if v ≠ documentVersion then throw (.unsupportedVersion v)
  let preset ←
    match d.preset with
    | none => pure Preset.standard
    | some name =>
        match Preset.ofText? name with
        | some p => pure p
        | none => throw (.unknownPreset name)
  let settings := (d.overrides.getD ⟨none, none, none⟩).apply preset.settings
  settings.validate
  pure settings

/-- The settings that a text gives. -/
def Settings.ofText (s : String) : Except SettingsFault Settings :=
  match (Yaml.parse? s).bind SettingsDocument.ofDocument? with
  | none => .error .malformed
  | some d => d.settings

/-- The settings that the bytes of a file give; `none` are those of a file that is not there. -/
def Settings.ofBytes : Option ByteArray → Except SettingsFault Settings
  | none => .error .unreadable
  | some bytes =>
      match String.fromUTF8? bytes with
      | none => .error .unreadable
      | some s => Settings.ofText s

/-! ## 4. Writing -/

/-- The written form of a truth value. -/
def boolText (b : Bool) : String := if b then "true" else "false"

/-- A document that gives every setting. -/
def Settings.render (s : Settings) : String :=
  "version: " ++ toString documentVersion ++ "\n" ++
  "lowering:\n" ++
  "  verify_on_finalize: " ++ boolText s.verify ++ "\n" ++
  "  name_values: " ++ boolText s.nameValues ++ "\n" ++
  "  max_literal_width: " ++ toString s.literalLimit ++ "\n"

end BitFlow
