import BitFlow.Bits.Range
import BitFlow.Build.Basic

/-!
# Writing variables

`Build.write` records a new content of a variable at the end of a block. A write to a part of the
variable reads the old content, puts the new bits between the old ones above and below them, and
records the whole.
-/

namespace BitFlow

namespace Build

/-- A value made by a partial write is marked as such. -/
def markPartial (x : VarId) : Operand → Build Unit
  | .value v =>
      Edit.updateValue v fun y =>
        if y.origin = .expression then { y with origin := .partialWrite x } else y
  | _ => pure ()

/-- The content of a whole variable of which the bits of `r` are replaced by `o`: the old bits
    above, the new ones, and the old bits below. The instructions go to the cursor, which has to
    stand in `b`. -/
def splice (decl : Variable) (r : BitRange) (b : BlockId) (o : Operand) (site : String) :
    Build Operand := do
  if decl.isArray then
    throw (.unsupported .arrayPart site)
  let width := decl.ty.width
  if ¬ r.Within width then
    throw (.outOfRange r.msb r.lsb width site)
  let found ← Edit.operandType o
  if found.width ≠ r.width then
    throw (.typeMismatch (.width r.width) (some found) site)
  let cursor := (← get).cursor
  if cursor.block ≠ b then
    throw (.violated (.cursorElsewhere decl.name b cursor.block))
  let old ← Track.read decl.id b
  let above ←
    if r.msb + 1 < width then
      pure [← Emit.slice old (width - 1) (r.msb + 1) site]
    else pure []
  let below ←
    if 0 < r.lsb then
      pure [← Emit.slice old (r.lsb - 1) 0 site]
    else pure []
  let joined ← Emit.concat (above ++ o :: below) site
  let whole ← Emit.cast joined decl.ty site
  markPartial decl.id whole
  pure whole

/-- The new content of `x` at the end of `b`: `o` itself, or the old content with the bits of one
    range replaced by `o`. -/
def write (x : VarId) (ranges : List BitRange) (b : BlockId) (o : Operand) : Build Operand := do
  let decl ← Track.declaration x
  let site := "write of " ++ decl.name
  let whole ←
    match ranges with
    | [] => do
        let found ← Edit.operandType o
        if found = decl.ty then pure o
        else throw (.typeMismatch (.type decl.ty) (some found) site)
    | [r] => splice decl r b o site
    | _ => throw (.unsupported .severalIndices site)
  Track.onTables (·.record x b whole)
  Track.nameAfter x whole
  pure whole

end Build

end BitFlow
