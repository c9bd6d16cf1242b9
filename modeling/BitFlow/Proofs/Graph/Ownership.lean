import BitFlow.Proofs.Graph.Revision

/-!
# Who lists a value, and who precedes a block

Ownership is recorded twice, in the value and in the lists of its block, and so is an edge, in the
branches of its source and in the predecessors of its target. Neither record depends on who uses a
value: they agree after every sequence of revisions, also one that pushes operands to a removed phi,
after which the table of users is no longer right.

Main statements: `Graph.Recorded.revise` -- one revision, whatever its arguments and whether it
succeeds or not, keeps both records; `Graph.ownership_reviseAll` -- after any sequence an attached
value stands once in the lists of its owner and nowhere else, a removed one stands nowhere, and
predecessors are the sources of branches.
-/

namespace BitFlow

namespace Graph

variable {g : Graph}

/-! ## 1. Replacing operands -/

section Replacing

variable (a b : Operand)

theorem Listed.replaceValue (h : g.Listed) (w : ValueId) :
    (g.updateValue w (·.replace a b)).Listed := by
  have hG : ∀ v, (g.updateValue w (·.replace a b)).value? v =
      (g.value? v).map (if w = v then (·.replace a b) else id) := by
    intro v
    rw [value?_updateValue]
    by_cases e : w = v
    · simp [e]
    · simp [e]
  refine h.map (F := fun _ => id) (fun c => by simp) hG (fun _ _ _ => ⟨rfl, rfl, rfl⟩) ?_
  intro v x _
  by_cases e : w = v
  · simp [e]
  · simp [e]

theorem Linked.updateValue (h : g.Linked) (w : ValueId) (f : Value → Value) :
    (g.updateValue w f).Linked :=
  h.map (F := fun _ => id) rfl (fun c => by simp) fun _ _ _ => ⟨rfl, rfl⟩

theorem block?_replaceConds (c d : BlockId) :
    (g.updateBlock c (·.replaceConds a b)).block? d =
      (g.block? d).map (if c = d then (·.replaceConds a b) else id) := by
  rw [block?_updateBlock]
  by_cases e : c = d
  · simp [e]
  · simp [e]

theorem Listed.replaceConds (h : g.Listed) (c : BlockId) :
    (g.updateBlock c (·.replaceConds a b)).Listed := by
  refine h.map (G := fun _ => id) (block?_replaceConds a b c) (fun v => by simp) ?_
    (fun _ _ _ => ⟨rfl, rfl, rfl⟩)
  intro d y _
  split <;> exact ⟨rfl, rfl, rfl⟩

theorem Linked.replaceConds (h : g.Linked) (c : BlockId) :
    (g.updateBlock c (·.replaceConds a b)).Linked := by
  refine h.map rfl (block?_replaceConds a b c) ?_
  intro d y _
  split
  · exact ⟨rfl, by simp [Block.replaceConds, Function.comp_def]⟩
  · exact ⟨rfl, rfl⟩

end Replacing

theorem Listed.addUses (h : g.Listed) (u : User) (ops : List Operand) :
    (g.addUses u ops).Listed :=
  h.map (F := fun _ => id) (G := fun _ => id) (fun b => by simp) (fun v => by simp)
    (fun _ _ _ => ⟨rfl, rfl, rfl⟩) (fun _ _ _ => ⟨rfl, rfl, rfl⟩)

theorem Linked.addUses (h : g.Linked) (u : User) (ops : List Operand) :
    (g.addUses u ops).Linked :=
  h.map (F := fun _ => id) (g.entry_addUses u ops) (fun b => by simp) fun _ _ _ => ⟨rfl, rfl⟩

/-! ## 2. One revision -/

/-- **What a graph records twice agrees**: owners with the lists of blocks, branches with
    predecessors. Of the users of values nothing is said. -/
structure Recorded (g : Graph) : Prop extends Listed g, Linked g

/-- What a revision other than a replacement makes of a graph. -/
theorem Listed.revised (h : g.Listed) {r : Revision} (hr : ∀ v o, r ≠ .replace v o) :
    Revised g r (g.revise r) := by
  cases r with
  | block label kind => exact .block label kind
  | edge source cond target => exact revised_edge source cond target
  | instr b position ty origin i => exact revised_instr b position ty origin i
  | phi b x ty => exact revised_phi b x ty
  | incoming v o pred => exact revised_incoming v o pred
  | replace v o => exact absurd rfl (hr v o)
  | detach v => exact h.revised_detach v

/-- A user that does not exist stops a replacement half way; what it has replaced until then is no
    record of owners or edges. -/
theorem Recorded.replace (h : g.Recorded) (v : ValueId) (o : Operand) :
    (g.revise (.replace v o)).Recorded := by
  have hkeep : Yields Recorded (fun _ => True) (Edit.replaceUses v o) :=
    Edit.yields_replaceUses_of
      (fun _ h => ⟨⟨h.block_id, h.value_id, h.owner_known, h.mem_phis, h.mem_instrs, h.nodup_phis,
        h.nodup_instrs⟩, ⟨h.entry_known, h.nodup_preds, h.mem_preds, h.target_known⟩⟩)
      (fun _ w h => ⟨h.toListed.replaceValue _ _ w, h.toLinked.updateValue w _⟩)
      (fun _ b h => ⟨h.toListed.replaceConds _ _ b, h.toLinked.replaceConds _ _ b⟩)
      (fun _ u h => ⟨h.toListed.addUses u _, h.toLinked.addUses u _⟩)
  refine (after_iff _ g Recorded).2 ((Leaves.discard_iff _).2 ?_)
  exact (hkeep g h).mono (fun _ _ h => h) fun _ _ h => h.1

/-- **One revision keeps both records**, whatever its arguments and whether it succeeds or not. -/
theorem Recorded.revise (h : g.Recorded) (r : Revision) : (g.revise r).Recorded := by
  by_cases hr : ∃ v o, r = .replace v o
  · obtain ⟨v, o, rfl⟩ := hr
    exact h.replace v o
  have hdone := h.toListed.revised fun v o e => hr ⟨v, o, e⟩
  revert hdone
  generalize g.revise r = g'
  intro hdone
  cases hdone with
  | same r => exact h
  | block label kind => exact ⟨h.toListed.pushBlock label kind, h.toLinked.pushBlock label kind⟩
  | edge cond hz hy => exact ⟨h.toListed.link _ cond _, h.toLinked.link hz hy cond⟩
  | instr position ty origin i hy =>
    exact ⟨h.toListed.withInstr hy _ ty origin i, h.toLinked.withInstr _ _ ty origin i⟩
  | phi x ty hy => exact ⟨h.toListed.withPhi hy x ty, h.toLinked.withPhi _ x ty⟩
  | incoming o pred hx hk =>
    exact ⟨h.toListed.withIncoming hx hk o pred, h.toLinked.withIncoming _ _ o pred⟩
  | replace hre => exact absurd ⟨_, _, rfl⟩ hr
  | detach hx hb => exact ⟨h.toListed.without hx hb, h.toLinked.without h.toListed hx hb⟩

theorem Recorded.reviseAll (h : g.Recorded) (rs : List Revision) : (g.reviseAll rs).Recorded := by
  induction rs generalizing g with
  | nil => exact h
  | cons r rs ih => exact ih (h.revise r)

/-! ## 3. Where a value stands -/

section Standing

variable {v : ValueId} {x : Value} {b : BlockId} {y : Block}

/-- How often the owner lists a value: once, among the values of its kind. -/
theorem Listed.count_owner (h : g.Listed) (hx : g.value? v = some x) (hb : x.block = some b)
    (hy : g.block? b = some y) :
    y.phis.count v = (if x.isPhi then 1 else 0) ∧ y.instrs.count v = if x.isPhi then 0 else 1 := by
  have hphis : v ∈ y.phis ↔ x.isPhi = true := by
    rw [h.mem_phis hy, hx]
    simp [hb]
  have hinstrs : v ∈ y.instrs ↔ x.isPhi = false := by
    rw [h.mem_instrs hy, hx]
    simp [hb]
  rw [List.Nodup.count (h.nodup_phis hy), List.Nodup.count (h.nodup_instrs hy)]
  cases hk : x.isPhi with
  | true => simp [hphis, hinstrs, hk]
  | false => simp [hphis, hinstrs, hk]

/-- A block that does not own a value does not list it. -/
theorem Listed.not_listed (h : g.Listed) (hx : g.value? v = some x) (hb : x.block ≠ some b)
    (hy : g.block? b = some y) : v ∉ y.phis ∧ v ∉ y.instrs := by
  rw [h.mem_phis hy, h.mem_instrs hy, hx]
  constructor
  · rintro ⟨z, hz, hbz, _⟩
    cases hz
    exact hb hbz
  · rintro ⟨z, hz, hbz, _⟩
    cases hz
    exact hb hbz

end Standing

/-- **Owners and lists, branches and predecessors agree after any sequence of revisions** of the
    empty graph: names are places; an attached value stands once in the lists of its owner, among
    the phis or among the instructions as its kind says, and in those of no other block; a removed
    value stands nowhere; and the predecessors of a block are, each once, the sources of the
    branches to it. -/
theorem ownership_reviseAll (name : String) (rs : List Revision) :
    let g := (Graph.fresh name).reviseAll rs
    (∀ v x, g.value? v = some x → x.id = v) ∧
    (∀ v x b, g.value? v = some x → x.block = some b →
      (∃ y, g.block? b = some y ∧ y.phis.count v = (if x.isPhi then 1 else 0) ∧
        y.instrs.count v = if x.isPhi then 0 else 1) ∧
      ∀ c y, g.block? c = some y → c ≠ b → v ∉ y.phis ∧ v ∉ y.instrs) ∧
    (∀ v x, g.value? v = some x → x.block = none →
      ∀ c y, g.block? c = some y → v ∉ y.phis ∧ v ∉ y.instrs) ∧
    (∀ b y, g.block? b = some y → y.preds.Nodup) ∧
    ∀ b y p, g.block? b = some y →
      (p ∈ y.preds ↔ ∃ z, g.block? p = some z ∧ ∃ br ∈ z.branches, br.target = b) := by
  intro g
  have h₀ : (Graph.fresh name).Recorded :=
    ⟨(Orderly.fresh name).toListed, (Orderly.fresh name).toLinked⟩
  have h : g.Recorded := h₀.reviseAll rs
  refine ⟨fun v x hx => h.value_id hx, fun v x b hx hb => ⟨?_, fun c y hy hc => ?_⟩,
    fun v x hx hb c y hy => ?_, fun b y hy => h.nodup_preds hy, fun b y p hy => h.mem_preds hy p⟩
  · obtain ⟨y, hy⟩ := h.owner_known hx hb
    exact ⟨y, hy, h.count_owner hx hb hy⟩
  · refine h.not_listed hx (fun e => hc ?_) hy
    rw [hb] at e
    exact (Option.some.inj e).symm
  · refine h.not_listed hx (fun e => ?_) hy
    rw [hb] at e
    cases e

/-- A removed phi takes an operand, so that the value which it names does not know about it; the
    attempt to replace a value that nobody has heard of changes nothing. -/
def lateOperand : List Revision :=
  selfNaming ++ [.incoming ⟨0⟩ (.value ⟨1⟩) ⟨1⟩, .replace ⟨1⟩ (.value ⟨0⟩), .edge ⟨1⟩ none ⟨1⟩,
    .replace ⟨9⟩ (.undef .bit)]

/-- In the graph of `lateOperand` the phi is in no list, the instruction stands first in its block,
    and of three branches to the head two come from itself. -/
theorem ownership_reviseAll_lateOperand :
    let g := (Graph.fresh "loop").reviseAll lateOperand
    (g.value? ⟨0⟩).map Value.block = some none ∧
    (g.block? ⟨1⟩).map (fun y => (y.phis, y.instrs, y.preds, y.branches.length)) =
      some ([], [⟨1⟩], [⟨0⟩, ⟨1⟩], 2) ∧
    (∀ c y, g.block? c = some y → (⟨0⟩ : ValueId) ∉ y.phis ∧ (⟨0⟩ : ValueId) ∉ y.instrs) := by
  intro g
  have hx : ∃ x, g.value? ⟨0⟩ = some x ∧ x.block = none := by
    have h : (g.value? ⟨0⟩).map Value.block = some none := by decide +kernel
    exact Option.map_eq_some_iff.1 h
  obtain ⟨x, hx, hb⟩ := hx
  refine ⟨by rw [hx, Option.map_some, hb], by decide +kernel, ?_⟩
  exact (ownership_reviseAll "loop" lateOperand).2.2.1 ⟨0⟩ x hx hb

end Graph

end BitFlow
