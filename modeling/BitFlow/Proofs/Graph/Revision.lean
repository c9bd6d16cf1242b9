import BitFlow.Proofs.Aftermath
import BitFlow.Proofs.Graph.Retire

/-!
# Sequences of revisions

A revision is one operation on a graph together with its arguments. Whoever applies revisions one
after the other, whatever their arguments and whether they succeed or not, has a graph in order at
each moment, as long as no operand is pushed to a phi that has been removed: such a phi would name
values that do not know about it.

Main statements: `Graph.Orderly.revise` -- one permitted revision keeps a graph in order;
`Graph.mem_users_reviseAll` -- after any permitted sequence the users of a value are exactly those
who refer to it, and replacing a value leaves nobody who does.
-/

namespace BitFlow

/-! ## 1. Revisions -/

/-- An operation on a graph with its arguments. -/
inductive Revision where
  | block (label : String) (kind : BlockKind)
  | edge (source : BlockId) (cond : Option Operand) (target : BlockId)
  | instr (b : BlockId) (position : Option Nat) (ty : Ty) (origin : Origin) (i : Instr)
  | phi (b : BlockId) (x : VarId) (ty : Ty)
  | incoming (v : ValueId) (o : Operand) (pred : BlockId)
  | replace (v : ValueId) (o : Operand)
  | detach (v : ValueId)
  deriving DecidableEq, Repr

/-- The operation of a revision, without its answer. -/
def Revision.edit : Revision → Edit Unit
  | .block label kind => discard (Edit.addBlock label kind)
  | .edge source cond target => Edit.addEdge source cond target
  | .instr b position ty origin i => discard (Edit.insertInstr b position ty origin i)
  | .phi b x ty => discard (Edit.appendPhi b x ty)
  | .incoming v o pred => Edit.pushIncoming v o pred
  | .replace v o => discard (Edit.replaceUses v o)
  | .detach v => Edit.detach v

namespace Graph

/-- The graph after a revision, whether it succeeds or stops with a fault. -/
def revise (g : Graph) (r : Revision) : Graph := after r.edit g

/-- The graph after several revisions. -/
def reviseAll (g : Graph) (rs : List Revision) : Graph := rs.foldl revise g

/-- Whether a revision respects that a removed phi takes no operands. -/
def permits (g : Graph) : Revision → Bool
  | .incoming v _ _ => (g.value? v).all Value.isAttached
  | _ => true

/-- Whether each of several revisions does, in the graph that it finds. -/
def permitsAll (g : Graph) : List Revision → Bool
  | [] => true
  | r :: rs => g.permits r && (g.revise r).permitsAll rs

/-! ## 2. What a revision does -/

/-- The graph that a revision makes of a graph in order. -/
inductive Revised (g : Graph) : Revision → Graph → Prop where
  /-- The revision was refused, or there was nothing to do. -/
  | same (r : Revision) : Revised g r g
  | block (label : String) (kind : BlockKind) :
      Revised g (.block label kind) (g.pushBlock label kind)
  | edge {source target : BlockId} {z y : Block} (cond : Option Operand)
      (hz : g.block? source = some z) (hy : g.block? target = some y) :
      Revised g (.edge source cond target) (g.link source cond target)
  | instr {b : BlockId} {y : Block} (position : Option Nat) (ty : Ty) (origin : Origin) (i : Instr)
      (hy : g.block? b = some y) :
      Revised g (.instr b position ty origin i)
        (g.withInstr b (position.getD y.instrs.length) ty origin i)
  | phi {b : BlockId} {y : Block} (x : VarId) (ty : Ty) (hy : g.block? b = some y) :
      Revised g (.phi b x ty) (g.withPhi b x ty)
  | incoming {v : ValueId} {x : Value} {p : Phi} (o : Operand) (pred : BlockId)
      (hx : g.value? v = some x) (hk : x.kind = .phi p) :
      Revised g (.incoming v o pred) (g.withIncoming v p o pred)
  | replace {v : ValueId} {o : Operand} {g' : Graph} (h : Rerouted v o (g.users v) g g') :
      Revised g (.replace v o) g'
  | detach {v : ValueId} {x : Value} {b : BlockId} (hx : g.value? v = some x)
      (hb : x.block = some b) : Revised g (.detach v) (g.without v x b)

variable {g : Graph}

section Leaves

variable {E : Fault → Graph → Prop}

theorem leaves_block {Q : Block → Graph → Prop} {b : BlockId}
    (hnone : g.block? b = none → E (.unknownBlock b) g)
    (hsome : ∀ y, g.block? b = some y → Q y g) : Leaves (Edit.block b) g E Q := by
  unfold Leaves
  rw [Edit.run_block]
  cases hb : g.block? b with
  | none => exact hnone hb
  | some y => exact hsome y hb

theorem leaves_value {Q : Value → Graph → Prop} {v : ValueId}
    (hnone : g.value? v = none → E (.violated (.unknownValue v)) g)
    (hsome : ∀ x, g.value? v = some x → Q x g) : Leaves (Edit.value v) g E Q := by
  unfold Leaves
  rw [Edit.run_value]
  cases hv : g.value? v with
  | none => exact hnone hv
  | some x => exact hsome x hv

end Leaves

end Graph

namespace Edit

/-- A look at a value. -/
theorem yields_seeValue {I : Graph → Prop} (v : ValueId) : Yields I (fun _ => True) (value v) :=
  fun _ hg => Graph.leaves_value (fun _ => hg) fun _ _ => ⟨hg, trivial⟩

/-- A look at a block. -/
theorem yields_seeBlock {I : Graph → Prop} (b : BlockId) : Yields I (fun _ => True) (block b) :=
  fun _ hg => Graph.leaves_block (fun _ => hg) fun _ _ => ⟨hg, trivial⟩

theorem yields_changeValue {I : Graph → Prop} {v : ValueId} {f : Value → Value}
    (hf : ∀ g, I g → I (g.updateValue v f)) : Yields I (fun _ => True) (updateValue v f) :=
  (yields_seeValue v).bind fun _ _ => .modify hf

theorem yields_changeBlock {I : Graph → Prop} {b : BlockId} {f : Block → Block}
    (hf : ∀ g, I g → I (g.updateBlock b f)) : Yields I (fun _ => True) (updateBlock b f) :=
  (yields_seeBlock b).bind fun _ _ => .modify hf

/-- Replacing keeps what each of its steps keeps, also when it stops half way. -/
theorem yields_replaceUses_of {I : Graph → Prop} {v : ValueId} {o : Operand}
    (hdrop : ∀ g, I g → I { g with uses := g.uses.drop v })
    (hvalue : ∀ g w, I g → I (g.updateValue w (·.replace (.value v) o)))
    (hblock : ∀ g b, I g → I (g.updateBlock b (·.replaceConds (.value v) o)))
    (huses : ∀ g u, I g → I (g.addUses u [o])) :
    Yields I (fun _ => True) (replaceUses v o) := by
  refine .look fun g _ => .bind (.modify hdrop) fun _ _ => ?_
  refine .bind (.forM (fun u => ?_) _) fun _ _ => .pure trivial
  have hdone : Yields I (fun _ => True) (modify (·.addUses u [o]) : Edit PUnit) :=
    .modify fun g hg => huses g u hg
  cases u with
  | value w => exact (yields_changeValue fun g hg => hvalue g w hg).bind fun _ _ => hdone
  | branch b => exact (yields_changeBlock fun g hg => hblock g b hg).bind fun _ _ => hdone

end Edit

namespace Graph

variable {g : Graph}

/-- Replacing succeeds and reaches every user. -/
theorem Orderly.rerouted_revise (h : g.Orderly) (v : ValueId) (o : Operand) :
    Rerouted v o (g.users v) g (g.revise (.replace v o)) := by
  refine (after_iff _ g _).2 ((Leaves.discard_iff _).2 (Leaves.of_ends ?_))
  refine (Edit.ends_replaceUses (v := v) (fun _ => h.knowsUser) o).mono fun former g' hg' => ?_
  obtain ⟨rfl, hre⟩ := hg'
  exact hre

theorem revised_edge (source : BlockId) (cond : Option Operand) (target : BlockId) :
    Revised g (.edge source cond target) (g.revise (.edge source cond target)) := by
  refine (after_iff _ g (Revised g _)).2 ?_
  show Leaves (Edit.addEdge source cond target) g _ _
  unfold Edit.addEdge
  rw [Leaves.bind_iff]
  refine leaves_block (fun _ => .same _) fun z hz => ?_
  by_cases hdead : z.isUnreachable = true
  · rw [if_pos hdead]
    exact .same _
  rw [if_neg hdead, Leaves.bind_iff]
  refine leaves_block (fun _ => .same _) fun y hy => ?_
  by_cases hlate : (y.isSealed && !y.preds.contains source) = true
  · rw [if_pos hlate]
    exact .same _
  rw [if_neg hlate, Leaves.bind_iff, Leaves.modify_iff, Leaves.bind_iff, Leaves.modify_iff,
    Leaves.modify_iff]
  exact .edge cond hz hy

theorem revised_instr (b : BlockId) (position : Option Nat) (ty : Ty) (origin : Origin)
    (i : Instr) :
    Revised g (.instr b position ty origin i) (g.revise (.instr b position ty origin i)) := by
  refine (after_iff _ g (Revised g _)).2 ((Leaves.discard_iff _).2 ?_)
  unfold Edit.insertInstr
  rw [Leaves.bind_iff]
  refine leaves_block (fun _ => .same _) fun y hy => ?_
  show Leaves (if _ then _ else _) g _ _
  split
  · exact .same _
  · exact .instr position ty origin i hy

theorem revised_phi (b : BlockId) (x : VarId) (ty : Ty) :
    Revised g (.phi b x ty) (g.revise (.phi b x ty)) := by
  refine (after_iff _ g (Revised g _)).2 ((Leaves.discard_iff _).2 ?_)
  unfold Edit.appendPhi
  rw [Leaves.bind_iff]
  exact leaves_block (fun _ => .same _) fun y hy => .phi x ty hy

theorem revised_incoming (v : ValueId) (o : Operand) (pred : BlockId) :
    Revised g (.incoming v o pred) (g.revise (.incoming v o pred)) := by
  refine (after_iff _ g (Revised g _)).2 ?_
  show Leaves (Edit.pushIncoming v o pred) g _ _
  unfold Edit.pushIncoming
  rw [Leaves.bind_iff]
  refine leaves_value (fun _ => .same _) fun x hx => ?_
  cases hk : x.kind with
  | instr i => exact .same _
  | phi p => exact .incoming o pred hx hk

theorem Listed.revised_detach (h : g.Listed) (v : ValueId) :
    Revised g (.detach v) (g.revise (.detach v)) := by
  refine (after_iff _ g (Revised g _)).2 ?_
  cases hx : g.value? v with
  | none =>
    show Leaves (Edit.value v >>= _) g _ _
    rw [Leaves.bind_iff]
    refine leaves_value (fun _ => .same _) fun x hx' => ?_
    rw [hx] at hx'
    cases hx'
  | some x =>
    cases hb : x.block with
    | none =>
      show Leaves (Edit.value v >>= _) g _ _
      rw [Leaves.bind_iff]
      refine leaves_value (fun _ => .same _) fun x' hx' => ?_
      rw [hx] at hx'
      cases hx'
      rw [hb]
      exact .same _
    | some b =>
      obtain ⟨y, hy⟩ := h.owner_known hx hb
      exact Leaves.of_ends ((Edit.ends_detach hx hb hy).2 (.detach hx hb))

theorem Orderly.revised (h : g.Orderly) (r : Revision) : Revised g r (g.revise r) := by
  cases r with
  | block label kind => exact .block label kind
  | edge source cond target => exact revised_edge source cond target
  | instr b position ty origin i => exact revised_instr b position ty origin i
  | phi b x ty => exact revised_phi b x ty
  | incoming v o pred => exact revised_incoming v o pred
  | replace v o => exact .replace (h.rerouted_revise v o)
  | detach v => exact h.toListed.revised_detach v

/-! ## 3. Order after revisions -/

/-- **One permitted revision keeps a graph in order.** -/
theorem Orderly.revise (h : g.Orderly) {r : Revision} (hr : g.permits r = true) :
    (g.revise r).Orderly := by
  have hdone := h.revised r
  revert hdone
  generalize g.revise r = g'
  intro hdone
  cases hdone with
  | same r => exact h
  | block label kind => exact h.pushBlock label kind
  | edge cond hz hy => exact h.link hz hy cond
  | instr position ty origin i hy => exact h.withInstr hy _ ty origin i
  | phi x ty hy => exact h.withPhi hy x ty
  | incoming o pred hx hk =>
    have hatt : (g.value? _).all Value.isAttached = true := hr
    rw [hx] at hatt
    exact h.withIncoming hx hatt hk o pred
  | replace hre => exact hre.orderly h
  | detach hx hb => exact h.without hx hb

theorem Orderly.reviseAll (h : g.Orderly) {rs : List Revision} (hrs : g.permitsAll rs = true) :
    (g.reviseAll rs).Orderly := by
  induction rs generalizing g with
  | nil => exact h
  | cons r rs ih =>
    obtain ⟨hr, hrs⟩ := Bool.and_eq_true_iff.1 hrs
    exact ih (h.revise hr) hrs

/-- **The users of a value are exactly those who refer to it**, after any permitted sequence of
    revisions of the empty graph; and nobody refers to a value that another operand has
    replaced. -/
theorem mem_users_reviseAll (name : String) {rs : List Revision}
    (hrs : (Graph.fresh name).permitsAll rs = true) :
    (∀ v u, u ∈ ((Graph.fresh name).reviseAll rs).users v ↔
      ((Graph.fresh name).reviseAll rs).Refers v u) ∧
    ∀ v o, o ≠ .value v → ∀ u,
      ¬ (((Graph.fresh name).reviseAll rs).revise (.replace v o)).Refers v u := by
  have h := (Orderly.fresh name).reviseAll hrs
  exact ⟨h.mem_users, fun v o ho u => (h.rerouted_revise v o).not_refers h ho u⟩

/-- A loop whose head branches on a phi that names itself; an instruction names the phi twice, takes
    its place everywhere, and the phi leaves. The last revision names no value and is refused. -/
def selfNaming : List Revision :=
  [.block "head" .live, .edge ⟨0⟩ none ⟨1⟩, .phi ⟨1⟩ ⟨0⟩ .bit, .incoming ⟨0⟩ (.undef .bit) ⟨0⟩,
    .incoming ⟨0⟩ (.value ⟨0⟩) ⟨1⟩, .edge ⟨1⟩ (some (.value ⟨0⟩)) ⟨1⟩,
    .instr ⟨1⟩ (some 0) .bit .expression
      ⟨.binary .and, [.value ⟨0⟩, .value ⟨0⟩], none⟩,
    .replace ⟨0⟩ (.value ⟨1⟩), .detach ⟨0⟩, .incoming ⟨7⟩ (.value ⟨1⟩) ⟨0⟩]

theorem mem_users_reviseAll_selfNaming :
    (Graph.fresh "loop").permitsAll selfNaming = true ∧
      ((Graph.fresh "loop").reviseAll selfNaming).users ⟨1⟩ = [.value ⟨1⟩, .branch ⟨1⟩] ∧
      (∀ v u, u ∈ ((Graph.fresh "loop").reviseAll selfNaming).users v ↔
        ((Graph.fresh "loop").reviseAll selfNaming).Refers v u) ∧
      ∀ v o, o ≠ .value v → ∀ u,
        ¬ (((Graph.fresh "loop").reviseAll selfNaming).revise (.replace v o)).Refers v u :=
  ⟨by decide +kernel, by decide +kernel, mem_users_reviseAll "loop" (by decide +kernel)⟩

end Graph

end BitFlow
