import BitFlow.Proofs.Action.Pervasive
import BitFlow.Proofs.Bench

/-!
# Names make no difference

A lowering that gives names and one that gives none do the same: they stop with the same fault, or
their results are the same but for the names. One run is followed beside the other through every
operation; what they do at the same time leaves states that differ in names alone.

Main statement: `Program.naming_inert`.
-/

namespace BitFlow

/-! ## 1. The check at the end -/

namespace Graph

theorem requireValue_unnamed {α : Type} {k : Value → Except Fault α} (g : Graph) (v : ValueId)
    (nameless : ∀ x, k x.unnamed = k x) :
    (g.unnamed.requireValue v >>= k) = (g.requireValue v >>= k) := by
  unfold requireValue
  rw [value?_unnamed]
  cases g.value? v with
  | none => rfl
  | some x => exact nameless x

theorem checkAttached_unnamed (g : Graph) (rule : ValueId → Violation) :
    g.unnamed.checkAttached rule = g.checkAttached rule := by
  funext o
  cases o with
  | value v => exact g.requireValue_unnamed v fun _ => rfl
  | lit c => rfl
  | undef ty => rfl

theorem checkBlock_unnamed (g : Graph) : g.unnamed.checkBlock = g.checkBlock := by
  have hphi : g.unnamed.checkPhi = g.checkPhi := by
    funext y b v
    exact g.requireValue_unnamed v fun _ => rfl
  have hvalue : g.unnamed.checkValue = g.checkValue := by
    funext b v
    unfold checkValue
    rw [checkAttached_unnamed]
    exact g.requireValue_unnamed v fun _ => rfl
  funext b
  unfold checkBlock
  rw [hphi, hvalue, checkAttached_unnamed]
  rfl

/-- The check at the end of a lowering does not see names. -/
theorem check_unnamed (g : Graph) : g.unnamed.check = g.check := by
  unfold check
  rw [checkBlock_unnamed]
  rfl

end Graph

theorem Lowering.finish_unnamed (l : Lowering) : l.unnamed.finish = l.finish := by
  unfold finish
  rw [show l.unnamed.bench.graph.check = l.bench.graph.check from l.bench.graph.check_unnamed]
  rfl

/-! ## 2. Actions -/

namespace Lower

variable {α β : Type}

/-- The action does not see names. -/
def Nameless (α : Type) (x : Lower α) : Prop := Natural Lowering.unnamed x

theorem nameless_editing {x : Edit α} (hx : Natural Graph.unnamed x) : Nameless α (editing x) := by
  have hbench : Natural Bench.unnamed (Build.onGraph x) := by
    apply Natural.focus (h := Graph.unnamed)
    · exact fun _ => rfl
    · exact fun _ _ => rfl
    · exact hx
  apply Natural.focus (h := Bench.unnamed)
  · exact fun _ => rfl
  · exact fun _ _ => rfl
  · exact hbench

theorem nameless_tracking_modify {h : Tracked → Tracked}
    (comm : ∀ s, h s.unnamed = (h s).unnamed) : Nameless PUnit (tracking (modify h)) := by
  intro l
  have hs := comm ⟨l.bench.graph, l.bench.reaching⟩
  exact congrArg (fun t : Tracked => EStateM.Result.ok PUnit.unit { l with
    bench := { l.bench with graph := t.graph, reaching := t.reaching } }) hs

/-- **What reads, seals, expressions and plain statements are made of does not see names.** -/
theorem compositional_nameless : Compositional Nameless where
  pure := .pure
  throw := .throw
  bind := .bind
  look _ nameless hf := .look nameless hf
  block _ hf := (nameless_editing (Edit.nameless_block _)).bind hf
  insertInstr b position ty origin i :=
    nameless_editing (Edit.nameless_insertInstr b position ty origin i)
  setCursor _ := fun _ => rfl
  appendPhi b x ty := nameless_editing (Edit.nameless_appendPhi b x ty)
  pushIncoming v o b := nameless_editing (Edit.nameless_pushIncoming v o b)
  updateValue v _ hf := nameless_editing (Edit.nameless_updateValue v fun x => hf x none)
  replaceUses v o := nameless_editing (Edit.nameless_replaceUses v o)
  detach v := nameless_editing (Edit.nameless_detach v)
  setForward _ _ := nameless_editing (.modify fun _ => rfl)
  sealed b := nameless_editing (Edit.nameless_updateBlock b _)
  onTables _ hf := nameless_tracking_modify fun s =>
    congrArg (Tracked.mk s.graph.unnamed) (hf.unnamed s.reaching)
  christen x o := nameless_tracking_modify fun s =>
    (s.christened_unnamed x o).trans (s.unnamed_christened x o).symm

/-- **What lowerings are made of does not see names.** -/
theorem pervasive_nameless : Pervasive Nameless where
  toStoring := compositional_nameless.storing
  observe := .look
  sealBlock := compositional_nameless.sealBlock
  addBlock label kind := nameless_editing (Edit.nameless_addBlock label kind)
  addEdge b cond c := nameless_editing (Edit.nameless_addEdge b cond c)
  updateBlock b f := nameless_editing (Edit.nameless_updateBlock b f)
  setExit _ := nameless_editing (.modify fun _ => rfl)
  books _ _ := fun _ => rfl

end Lower

/-! ## 3. Programs -/

/-- The result of a lowering without names. -/
def Lowered.unnamed (r : Lowered) : Lowered := { r with graph := r.graph.unnamed }

namespace Program

theorem start_unnamed (p : Program) (s : Settings) :
    (Lowering.start p s).unnamed = .start p { s with nameValues := false } := by
  have hfresh : (Graph.fresh p.name).unnamed = .fresh p.name :=
    congrArg (fun vs => { Graph.fresh p.name with values := vs }) Array.map_empty
  exact congrArg (fun g => { Lowering.start p { s with nameValues := false } with
    bench := { Bench.fresh p.name p.vars false s.literalLimit with graph := g } }) hfresh

/-- **Without names a lowering gives what it gives with names**, once these are erased. -/
theorem lower_unnamed (p : Program) (s : Settings) :
    p.lower { s with nameValues := false } = (p.lower s).map Lowered.unnamed := by
  have hrun := Lower.pervasive_nameless.program p (.start p s)
  rw [start_unnamed] at hrun
  unfold lower
  rw [hrun]
  cases (Lower.program p).run (.start p s) with
  | error e l => rfl
  | ok b l =>
    dsimp only [seen]
    rw [l.finish_unnamed]
    cases s.verify with
    | false => rfl
    | true => cases l.finish <;> rfl

/-- **Names make no difference.** Under settings that differ in nothing but whether values get
    names, a program is refused with the same fault, or lowered with the same counts to graphs that
    are equal once names are erased; without names no value has one. -/
theorem naming_inert (p : Program) (s : Settings) :
    (∀ a b : Bool, (p.lower { s with nameValues := a }).map Lowered.unnamed =
        (p.lower { s with nameValues := b }).map Lowered.unnamed) ∧
      ∀ r, p.lower { s with nameValues := false } = .ok r → ∀ x ∈ r.graph.values, x.name = none := by
  constructor
  · intro a b
    rw [← lower_unnamed p { s with nameValues := a }, ← lower_unnamed p { s with nameValues := b }]
  · intro r hr x hx
    rw [lower_unnamed] at hr
    cases hl : p.lower s with
    | error e =>
      rw [hl] at hr
      cases hr
    | ok r' =>
      rw [hl] at hr
      cases hr
      obtain ⟨y, -, rfl⟩ := Array.mem_map.1 hx
      rfl

/-- The phi of the loop in `doubling` has a name if values get names, and else there is none. -/
theorem naming_inert_doubling :
    ∃ r r', doubling.lower { Preset.fast.settings with nameValues := true } = .ok r ∧
      doubling.lower { Preset.fast.settings with nameValues := false } = .ok r' ∧
      r.unnamed = r'.unnamed ∧ (r.graph.value? ⟨1⟩).bind Value.name = some "x_1" ∧
      ∀ x ∈ r'.graph.values, x.name = none := by
  have hnamed : (doubling.lower { Preset.fast.settings with nameValues := true }).toOption.any
      (fun r => (r.graph.value? ⟨1⟩).bind Value.name = some "x_1") = true := by decide +kernel
  have hinert := naming_inert doubling Preset.fast.settings
  cases hr : doubling.lower { Preset.fast.settings with nameValues := true } with
  | error e =>
    rw [hr] at hnamed
    cases hnamed
  | ok r =>
    have hsame := hinert.1 true false
    rw [hr] at hnamed hsame
    cases hr' : doubling.lower { Preset.fast.settings with nameValues := false } with
    | error e =>
      rw [hr'] at hsame
      cases hsame
    | ok r' =>
      rw [hr'] at hsame
      exact ⟨r, r', rfl, rfl, Except.ok.inj hsame, of_decide_eq_true hnamed, hinert.2 r' hr'⟩

end Program

end BitFlow
