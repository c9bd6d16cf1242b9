import BitFlow.Lower.Program
import BitFlow.Proofs.Reaching.Sealing

/-!
# Computations on a bench

How computations on a part of a bench or of a lowering end, and what the write of a whole variable
leaves. A rule of a jump has one hypothesis for each way it can go.

Main statements: `Lower.ends_breakLoop`, `Lower.ends_continueLoop`.
-/

namespace BitFlow

/-- A fault that is the program's own: it asks for something that the language does not have. -/
def Fault.isRefusal : Fault → Bool
  | .unknownBlock _ => false
  | .violated _ => false
  | .endless => false
  | _ => true

/-- Faults of the program are among those that may occur. -/
def Tolerates (R : Fault → Prop) : Prop := ∀ {e}, Fault.isRefusal e = true → R e

theorem tolerates_all : Tolerates fun _ => True := fun _ => trivial

variable {α : Type} {R : Fault → Prop}

/-- Graph and tables of a bench. -/
def Bench.tracked (s : Bench) : Tracked := ⟨s.graph, s.reaching⟩

/-- The bench with other graph and tables. -/
def Bench.retrack (s : Bench) (t : Tracked) : Bench :=
  { s with graph := t.graph, reaching := t.reaching }

namespace Build

variable {s : Bench}

theorem ends_edit {Q : α → Bench → Prop} (x : Edit α) :
    Ends (liftM x : Build α) s R Q ↔ Ends x s.graph R fun a g => Q a { s with graph := g } :=
  (Ends.focus_iff _).trans (Ends.focus_iff x)

theorem ends_track {Q : α → Bench → Prop} (x : Track α) :
    Ends (liftM x : Build α) s R Q ↔ Ends x s.tracked R fun a t => Q a (s.retrack t) :=
  Ends.focus_iff x

theorem ends_emit {Q : α → Bench → Prop} (x : Emit α) :
    Ends (liftM x : Build α) s R Q ↔ Ends x ⟨s.graph, s.cursor⟩ R fun a t =>
      Q a { s with graph := t.graph, cursor := t.cursor } :=
  Ends.focus_iff x

/-- What type an operand that exists has is answered, and nothing changes. -/
theorem ends_operandType {g : Graph} {o : Operand} {Q : Ty → Graph → Prop} (hk : g.Knows o)
    (h : ∀ ty, Q ty g) : Ends (Edit.operandType o) g R Q := by
  unfold Edit.operandType
  cases o with
  | lit c => exact h _
  | undef ty => exact h _
  | value v =>
    obtain ⟨z, hz⟩ := Graph.exists_value? (hk v rfl)
    rw [Ends.bind_iff, Edit.ends_value hz]
    exact h _

theorem ends_refuseArrayBase (hR : Tolerates R) {base : Expr} {site : String}
    {Q : Unit → Bench → Prop} (hQ : Q () s) : Ends (refuseArrayBase base site) s R Q := by
  unfold refuseArrayBase
  split
  · rw [Ends.bind_iff, ends_track]
    refine Track.ends_declaration (fun _ => hR rfl) fun d _ => ?_
    split
    · exact hR rfl
    · exact hQ
  · exact hQ

theorem ends_bound (hR : Tolerates R) {e : Expr} {site : String} {Q : Nat → Bench → Prop}
    (hQ : ∀ n, e.position? = some n → Q n s) : Ends (bound e site) s R Q := by
  unfold bound
  split
  · rename_i n hn
    exact hQ n hn
  · exact hR rfl

/-- A slice where one is asked for, and no operand otherwise. -/
def sliceIf (c : Prop) [Decidable c] (a : Operand) (msb lsb : Nat) (site : String) :
    Build (List Operand) :=
  if c then do
    let o ← Emit.slice a msb lsb site
    pure [o]
  else pure []

theorem sliceIf_bind (c : Prop) [Decidable c] {a : Operand} {msb lsb : Nat} {site : String}
    (k : List Operand → Build α) :
    (if c then do
        let o ← (liftM (Emit.slice a msb lsb site) : Build Operand)
        let os ← pure [o]
        k os
      else do
        let os ← pure []
        k os) = sliceIf c a msb lsb site >>= k := by
  unfold sliceIf
  split
  · simp only [bind_assoc, pure_bind]
  · rfl

theorem ends_sliceIf_bind (c : Prop) [Decidable c] {a : Operand} {msb lsb : Nat} {site : String}
    {k : List Operand → Build Operand} {Q : Operand → Bench → Prop} :
    Ends (if c then do
        let o ← (liftM (Emit.slice a msb lsb site) : Build Operand)
        let os ← pure [o]
        k os
      else do
        let os ← pure []
        k os) s R Q ↔
      Ends (sliceIf c a msb lsb site) s R fun os t => Ends (k os) t R Q := by
  rw [sliceIf_bind, Ends.bind_iff]

/-- The old content `old` of a variable with the bits of a range replaced by `o`: slices of the old
    bits, their concatenation with the new ones, and a conversion to the type of the variable. -/
def assemble (decl : Variable) (r : BitRange) (old o : Operand) (site : String) :
    Build Operand := do
  let above ← sliceIf (r.msb + 1 < decl.ty.width) old (decl.ty.width - 1) (r.msb + 1) site
  let below ← sliceIf (0 < r.lsb) old (r.lsb - 1) 0 site
  let joined ← Emit.concat (above ++ o :: below) site
  let whole ← Emit.cast joined decl.ty site
  markPartial decl.id whole
  pure whole

/-- A splice is a number of checks, a read, and what is put together. -/
theorem splice_eq (decl : Variable) (r : BitRange) (b : BlockId) (o : Operand) (site : String) :
    splice decl r b o site = (do
      if decl.isArray then
        throw (.unsupported .arrayPart site)
      if ¬ r.Within decl.ty.width then
        throw (.outOfRange r.msb r.lsb decl.ty.width site)
      let found ← Edit.operandType o
      if found.width ≠ r.width then
        throw (.typeMismatch (.width r.width) (some found) site)
      let cursor := (← get).cursor
      if cursor.block ≠ b then
        throw (.violated (.cursorElsewhere decl.name b cursor.block))
      let old ← Track.read decl.id b
      assemble decl r old o site) := by
  unfold splice assemble
  simp only [sliceIf_bind]

/-- Marking a value changes nothing that is looked at. -/
theorem ends_markPartial {x : VarId} {o : Operand} (hk : s.graph.Knows o) :
    Ends (markPartial x o) s R fun _ s' => ∃ t, s.tracked.Alike t ∧ s' = s.retrack t := by
  cases o with
  | lit c => exact ⟨s.tracked, .refl _, rfl⟩
  | undef ty => exact ⟨s.tracked, .refl _, rfl⟩
  | value v =>
    obtain ⟨z, hz⟩ := Graph.exists_value? (hk v rfl)
    unfold markPartial
    rw [ends_edit, Edit.ends_updateValue hz]
    refine ⟨⟨_, s.reaching⟩, ⟨.updateValue s.graph v fun y => ?_, rfl, rfl, rfl, rfl, rfl⟩, rfl⟩
    split <;> exact ⟨rfl, rfl, rfl, rfl⟩

/-- Marking a value has nothing to do with the tables. -/
theorem keeps_tables_markPartial (x : VarId) (o : Operand) :
    Keeps Bench.reaching (markPartial x o) := by
  cases o with
  | lit c => exact .pure _
  | undef ty => exact .pure _
  | value v => exact fun _ => (ends_edit _).2 (.of_run fun _ _ _ => rfl)

/-- **A whole variable is written**: the operand has the type of the variable, it is recorded, and
    it may get a name. -/
theorem ends_writeWhole (hR : Tolerates R) {x : VarId} {b : BlockId} {o : Operand}
    {Q : Operand → Bench → Prop} (hk : s.graph.Knows o)
    (h : ∀ d t, variableById? s.reaching.vars x = some d →
      (s.tracked.recorded x b o).Alike t → Q o (s.retrack t)) :
    Ends (write x [] b o) s R Q := by
  unfold write
  rw [Ends.bind_iff, ends_track]
  refine Track.ends_declaration (fun _ => hR rfl) fun d hd => ?_
  rw [Ends.bind_iff, ends_edit]
  refine ends_operandType hk fun ty => ?_
  split
  · rw [Ends.bind_iff, Ends.pure_iff, Ends.bind_iff, ends_track, Track.ends_onTables, Ends.bind_iff,
      ends_track]
    exact (Track.ends_nameAfter hk fun _ => hR rfl).mono fun _ t ht => h d t hd ht
  · exact hR rfl

end Build

/-- Graph and tables of a lowering. -/
def Lowering.tracked (l : Lowering) : Tracked := l.bench.tracked

namespace Lower

variable {l : Lowering}

theorem ends_build {Q : α → Lowering → Prop} (x : Build α) :
    Ends (liftM x : Lower α) l R Q ↔ Ends x l.bench R fun a s => Q a { l with bench := s } :=
  Ends.focus_iff x

theorem ends_edit {Q : α → Lowering → Prop} (x : Edit α) :
    Ends (liftM x : Lower α) l R Q ↔
      Ends x l.bench.graph R fun a g => Q a { l with bench := { l.bench with graph := g } } :=
  (Ends.focus_iff _).trans (Build.ends_edit x)

theorem ends_track {Q : α → Lowering → Prop} (x : Track α) :
    Ends (liftM x : Lower α) l R Q ↔
      Ends x l.tracked R fun a t => Q a { l with bench := l.bench.retrack t } :=
  (Ends.focus_iff _).trans (Build.ends_track x)

theorem ends_emit {Q : α → Lowering → Prop} (x : Emit α) :
    Ends (liftM x : Lower α) l R Q ↔
      Ends (liftM x : Build α) l.bench R fun a s => Q a { l with bench := s } :=
  Ends.focus_iff _

theorem ends_freshLabel {construct : String} {Q : String → Lowering → Prop}
    (hQ : ∀ label n, Q label { l with nextLabel := n }) : Ends (freshLabel construct) l R Q :=
  hQ _ _

theorem ends_enter {b : BlockId} {Q : Unit → Lowering → Prop}
    (hQ : Q () { l with bench := { l.bench with cursor := ⟨b, none⟩ } }) : Ends (enter b) l R Q :=
  hQ

theorem ends_pushLoop {f : LoopFrame} {Q : Unit → Lowering → Prop}
    (hQ : Q () { l with loops := f :: l.loops }) : Ends (pushLoop f) l R Q :=
  hQ

/-- The innermost loop is closed, if one is open. -/
theorem ends_popLoop {label : String} {Q : LoopFrame → Lowering → Prop}
    (hnone : l.loops = [] → R (.violated (.loopUnderflow label)))
    (hQ : ∀ f rest, l.loops = f :: rest → Q f { l with loops := rest }) :
    Ends (popLoop label) l R Q := by
  unfold popLoop
  rw [Ends.bind_iff, Ends.get_iff]
  cases hl : l.loops with
  | nil => exact hnone hl
  | cons f rest => exact hQ f rest hl

/-- **Out of the innermost loop.** Outside of loops that is refused. A live block is noted as one
    that leaves the loop, and what follows is dead. -/
theorem ends_breakLoop {b : BlockId} {Q : BlockId → Lowering → Prop}
    (hnone : l.bench.graph.block? b = none → R (.unknownBlock b))
    (houtside : l.loops = [] → R (.unsupported .breakOutside "break"))
    (hlive : ∀ y f rest, l.bench.graph.block? b = some y → y.isUnreachable = false →
      l.loops = f :: rest →
      Ends deadBlock { l with loops := { f with breaks := f.breaks ++ [b] } :: rest } R Q)
    (hdead : ∀ y, l.bench.graph.block? b = some y → y.isUnreachable = true → l.loops ≠ [] →
      Ends deadBlock l R Q) : Ends (breakLoop b) l R Q := by
  obtain ⟨bench, loops, n⟩ := l
  unfold breakLoop
  rw [Ends.bind_iff, ends_edit]
  cases hy : bench.graph.block? b with
  | none =>
    unfold Ends
    rw [Edit.run_block, hy]
    exact hnone hy
  | some y =>
    refine (Edit.ends_block hy).2 ?_
    rw [Ends.bind_iff, Ends.get_iff]
    cases loops with
    | nil => exact houtside rfl
    | cons f rest =>
      cases hu : y.isUnreachable with
      | true => exact hdead y hy hu (List.cons_ne_nil f rest)
      | false => exact hlive y f rest hy hu rfl

/-- **On to the next round of the innermost loop.** Outside of loops that is refused. The step of
    the loop runs, its end jumps to the head, and what follows is dead. -/
theorem ends_continueLoop {advance : BlockId → Lower BlockId} {b : BlockId}
    {Q : BlockId → Lowering → Prop}
    (houtside : l.loops = [] → R (.unsupported .continueOutside "continue"))
    (hinside : ∀ f rest, l.loops = f :: rest → Ends (advance b) l R fun last l₁ =>
      Ends (liftM (Edit.addEdge last none f.head) : Lower Unit) l₁ R fun _ l₂ =>
        Ends deadBlock l₂ R Q) : Ends (continueLoop advance b) l R Q := by
  unfold continueLoop
  rw [Ends.bind_iff, Ends.get_iff]
  split
  · exact houtside ‹_›
  · rename_i f rest hl
    rw [Ends.bind_iff]
    refine (hinside f rest hl).mono fun last l₁ h₁ => ?_
    rw [Ends.bind_iff]
    exact h₁

end Lower

/-- The run behind a result. -/
theorem Program.run_of_lower {p : Program} {s : Settings} {r : Lowered} (h : p.lower s = .ok r) :
    ∃ b l, (Lower.program p).run (.start p s) = .ok b l ∧ r = l.result := by
  unfold Program.lower at h
  split at h
  · cases h
  · rename_i b l run
    refine ⟨b, l, run, ?_⟩
    split at h
    · cases hf : l.finish with
      | error e =>
        rw [hf] at h
        cases h
      | ok u =>
        rw [hf] at h
        cases h
        rfl
    · cases h
      rfl

/-! ## A sample -/

/-- A lowering whose result passes a test has a result. -/
theorem Program.exists_lower_of_any {p : Program} {s : Settings} {test : Lowered → Bool}
    (h : (p.lower s).toOption.any test = true) : ∃ r, p.lower s = .ok r ∧ test r = true := by
  cases hr : p.lower s with
  | error e =>
    rw [hr] at h
    cases h
  | ok r =>
    rw [hr] at h
    exact ⟨r, rfl, h⟩

/-- A program that reads a datum, doubles it until it is large, and writes it. -/
def doubling : Program where
  name := "doubling"
  vars := [⟨⟨0⟩, "x", .unsigned 8, []⟩]
  ports := [⟨⟨0⟩, "in", .unsigned 8, .input⟩, ⟨⟨1⟩, "out", .unsigned 8, .output⟩]
  body := [.read ⟨0⟩ ⟨0⟩,
    .whileLoop (.compare .lt (.var ⟨0⟩) (.lit (.ofNat 100 (.unsigned 8))))
      [.assign ⟨0⟩ [] (.binary .add (.var ⟨0⟩) (.var ⟨0⟩))],
    .write ⟨1⟩ (.var ⟨0⟩)]

/-- `doubling` is lowered, and its loop needs a phi. -/
theorem lower_doubling : ∃ r, doubling.lower Preset.fast.settings = .ok r ∧
    (r.graph.phi? ⟨1⟩).isSome = true := by
  have hrun : (doubling.lower Preset.fast.settings).toOption.any
      (fun r => (r.graph.phi? ⟨1⟩).isSome) = true := by decide +kernel
  exact Program.exists_lower_of_any hrun

end BitFlow
