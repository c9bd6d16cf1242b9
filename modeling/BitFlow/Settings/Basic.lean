import BitFlow.Bits.Ty

/-!
# Settings

The settings of a lowering: whether its result is checked, whether values get names, and how wide
a literal may be. A preset gives all of them at once.

Main statement: `Settings.validate_eq_ok_iff` -- settings are valid when some literal is admitted
and none that the storage cannot hold.
-/

namespace BitFlow

/-- The settings of a lowering. -/
structure Settings where
  /-- Whether the finished graph is checked. -/
  verify : Bool
  /-- Whether values get names after the variables they define. -/
  nameValues : Bool
  /-- The width of the widest literal that is admitted. -/
  literalLimit : Nat
  deriving DecidableEq, Repr

/-! ## 1. Presets -/

/-- A complete choice of settings. -/
inductive Preset where
  /-- Everything is checked and values are named. -/
  | strict
  /-- Nothing is checked and values are anonymous. -/
  | fast
  deriving DecidableEq, Repr

namespace Preset

/-- The preset that counts where none is named. -/
def standard : Preset := .strict

/-- The name of a preset. -/
def text : Preset → String
  | .strict => "strict"
  | .fast => "fast"

/-- The settings of a preset. -/
def settings : Preset → Settings
  | .strict => ⟨true, true, storageBits⟩
  | .fast => ⟨false, false, storageBits⟩

/-- The preset of that name, in letters of either case. -/
def ofText? (s : String) : Option Preset :=
  [strict, fast].find? fun p => p.text == s.map Char.toLower

end Preset

namespace Settings

/-- The settings of the standard preset. -/
def standard : Settings := Preset.standard.settings

/-- The settings of a lowering that was given none: checked, without names. -/
def plain : Settings := ⟨true, false, storageBits⟩

end Settings

/-! ## 2. Faults of settings -/

/-- Why settings are refused. -/
inductive SettingsFault where
  /-- The limit on literals is outside the storage. -/
  | limitOutOfRange (limit : Nat)
  | missingVersion
  | unsupportedVersion (found : Nat)
  | unknownPreset (name : String)
  /-- The document is not well formed, or not of the expected shape. -/
  | malformed
  /-- The document cannot be read as text. -/
  | unreadable
  deriving DecidableEq, Repr

/-- The wording of a fault that concerns the content; a document that cannot be read at all has
    none. -/
def SettingsFault.message? : SettingsFault → Option String
  | .limitOutOfRange limit =>
      some ("Invalid range for field 'max_literal_width': " ++ toString limit ++
        " not in 1..=128. Literals are stored in 128 bits")
  | .missingVersion =>
      some ("Missing 'version' field in configuration file. " ++
        "Add 'version: 1' to the top of your YAML file.")
  | .unsupportedVersion found =>
      some ("Unsupported configuration version " ++ toString found ++ ". Supported versions: 1")
  | .unknownPreset name =>
      some ("Unknown preset '" ++ name ++ "'. Valid presets: strict, fast")
  | .malformed => none
  | .unreadable => none

/-! ## 3. Validity -/

namespace Settings

/-- Stops unless the limit on literals is between one bit and the storage size. -/
def validate (s : Settings) : Except SettingsFault Unit :=
  if 1 ≤ s.literalLimit ∧ s.literalLimit ≤ storageBits then .ok ()
  else .error (.limitOutOfRange s.literalLimit)

theorem validate_eq_ok_iff (s : Settings) :
    s.validate = .ok () ↔ 1 ≤ s.literalLimit ∧ s.literalLimit ≤ storageBits := by
  unfold validate
  split <;> simp_all

/-- Settings that may be absent; absent ones are valid. -/
def validateOptional : Option Settings → Except SettingsFault Unit
  | some s => s.validate
  | none => .ok ()

/-- The name under which optional settings are reported. -/
def reportName : Option Settings → String
  | some _ => "LoweringConfig"
  | none => "Config"

end Settings

end BitFlow
