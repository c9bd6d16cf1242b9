import BitFlow.Proofs.Graph.Revision
import BitFlow.Reaching.Basic

/-!
# What is seen of the values

`Graph.survey k` lists what `k` sees of each value of a graph, the removed ones included. If `k`
sees of a value neither its operands nor where it comes from, few operations change the list: a new
value comes last, a detached one is seen anew at its place, and nothing else happens to it.

Main statements: `Edit.spares_replaceUses` and its companions -- what leaves the list alone, also
where it stops with a fault; `Graph.survey_withPhi`, `Graph.survey_without` -- what does not;
`Tracked.Surveys.yields` -- an invariant that sees no more of the graph than the list.
-/

namespace BitFlow

variable {α β : Type} {k : Value → β}

/-- What `k` sees of a value depends neither on where it comes from nor on its operands: of what the
    value is, only whether it is a phi. -/
structure Value.Overlooks (k : Value → β) : Prop where
  kind : ∀ (x : Value) c, { x with kind := c }.isPhi = x.isPhi → k { x with kind := c } = k x
  origin : ∀ (x : Value) r, k { x with origin := r } = k x

theorem Value.Overlooks.replace (hk : Value.Overlooks k) (a b : Operand) (x : Value) :
    k (x.replace a b) = k x := hk.kind x _ (x.isPhi_replace a b)

namespace Graph

/-! ## 1. The survey -/

/-- What `k` sees of each value, in the order in which they were made. -/
def survey (k : Value → β) (g : Graph) : List β := g.values.toList.map k

variable {g : Graph}

theorem getElem?_survey (g : Graph) (i : Nat) : (g.survey k)[i]? = (g.value? ⟨i⟩).map k := by
  simp [survey, value?]

theorem length_survey (g : Graph) : (g.survey k).length = g.values.size := by
  simp [survey]

/-- A change of a value that `k` does not see. -/
theorem survey_updateValue {v : ValueId} {f : Value → Value}
    (hf : ∀ x, g.value? v = some x → k (f x) = k x) :
    (g.updateValue v f).survey k = g.survey k := by
  refine List.ext_getElem? fun i => ?_
  rw [getElem?_survey, getElem?_survey, value?_updateValue]
  split
  · rename_i e
    rw [← e]
    cases hx : g.value? v with
    | none => rfl
    | some x => exact congrArg some (hf x hx)
  · rfl

/-- A change of a value is seen at its place. -/
theorem survey_updateValue_eq_set {v : ValueId} {x : Value} (hx : g.value? v = some x)
    (f : Value → Value) : (g.updateValue v f).survey k = (g.survey k).set v.index (k (f x)) := by
  refine List.ext_getElem? fun i => ?_
  rw [getElem?_survey, value?_updateValue, List.getElem?_set, getElem?_survey, length_survey]
  by_cases e : v.index = i
  · have ev : v = ⟨i⟩ := congrArg ValueId.mk e
    rw [if_pos ev, if_pos e, if_pos (index_lt_of_value? hx), ← ev, hx]
    rfl
  · rw [if_neg e, if_neg fun ev => e (congrArg ValueId.index ev)]

theorem survey_addUses (g : Graph) (u : User) (ops : List Operand) :
    (g.addUses u ops).survey k = g.survey k := by
  rw [addUses_eq]
  rfl

theorem survey_removeUses (g : Graph) (u : User) (ops : List Operand) :
    (g.removeUses u ops).survey k = g.survey k := by
  rw [removeUses_eq]
  rfl

/-- A new value is seen last. -/
theorem survey_pushValue (g : Graph) (ty : Ty) (origin : Origin) (b : BlockId) (kind : ValueKind) :
    (g.pushValue ty origin b kind).survey k =
      g.survey k ++ [k ⟨g.nextValue, ty, none, origin, some b, kind⟩] := by
  simp [survey, pushValue]

theorem survey_withPhi (g : Graph) (b : BlockId) (x : VarId) (ty : Ty) :
    (g.withPhi b x ty).survey k =
      g.survey k ++ [k ⟨g.nextValue, ty, none, .phi x, some b, .phi ⟨x, []⟩⟩] :=
  survey_pushValue g ty (.phi x) b (.phi ⟨x, []⟩)

theorem survey_withInstr (g : Graph) (b : BlockId) (place : Nat) (ty : Ty) (origin : Origin)
    (i : Instr) :
    (g.withInstr b place ty origin i).survey k =
      g.survey k ++ [k ⟨g.nextValue, ty, none, origin, some b, .instr i⟩] := by
  unfold withInstr
  rw [survey_addUses]
  exact survey_pushValue g ty origin b (.instr i)

/-- A detached value is seen anew at its place. -/
theorem survey_without {v : ValueId} {x : Value} (hx : g.value? v = some x) (b : BlockId) :
    (g.without v x b).survey k = (g.survey k).set v.index (k { x with block := none }) := by
  refine (survey_updateValue_eq_set (x := x) ?_ _).trans ?_
  · rw [value?_removeUses]
    exact hx
  · rw [survey_removeUses]
    rfl

/-- Names and origins aside, graphs that are alike have the same values. -/
theorem Alike.survey {g g' : Graph} (h : g.Alike g')
    (hk : ∀ x y : Value, y.block = x.block → y.kind = x.kind → k y = k x) :
    g'.survey k = g.survey k := by
  obtain ⟨G, hG, hGx⟩ := h.value
  refine List.ext_getElem? fun i => ?_
  rw [getElem?_survey, getElem?_survey, hG, Option.map_map]
  congr 1
  funext x
  obtain ⟨-, -, hb, hkind⟩ := hGx ⟨i⟩ x
  exact hk x _ hb hkind

end Graph

/-! ## 2. Operations that leave the survey alone -/

namespace Edit

/-- The computation leaves alone what `k` sees of the values, whichever way it ends. -/
def Spares (k : Value → β) (x : Edit α) : Prop :=
  ∀ c, Yields (fun g => g.survey k = c) (fun _ => True) x

namespace Spares

theorem bind {γ : Type} {x : Edit α} {f : α → Edit γ} (hx : Spares k x)
    (hf : ∀ a, Spares k (f a)) : Spares k (x >>= f) :=
  fun c => (hx c).bind fun a _ => hf a c

theorem modify {h : Graph → Graph} (hh : ∀ g, (h g).survey k = g.survey k) :
    Spares k (modify h : Edit PUnit) := fun _ => .modify fun g hg => (hh g).trans hg

end Spares

theorem spares_block (b : BlockId) : Spares k (block b) := fun _ => yields_seeBlock b

theorem spares_updateBlock (b : BlockId) (f : Block → Block) : Spares k (updateBlock b f) :=
  fun _ => yields_changeBlock fun _ hg => hg

theorem spares_updateValue (v : ValueId) {f : Value → Value} (hf : ∀ x, k (f x) = k x) :
    Spares k (updateValue v f) :=
  fun _ => yields_changeValue fun _ hg => (Graph.survey_updateValue fun x _ => hf x).trans hg

theorem spares_addUses (u : User) (ops : List Operand) :
    Spares k (modify (·.addUses u ops) : Edit PUnit) := .modify fun g => g.survey_addUses u ops

theorem spares_addBlock (label : String) (kind : BlockKind) : Spares k (addBlock label kind) :=
  fun _ _ hg => ⟨hg, trivial⟩

theorem spares_addEdge (b : BlockId) (cond : Option Operand) (c : BlockId) :
    Spares k (addEdge b cond c) := by
  refine (spares_block b).bind fun z => ?_
  dsimp only
  split
  · exact fun _ => .pure trivial
  refine (spares_block c).bind fun y => ?_
  split
  · exact fun _ => .throw _
  · exact .bind (.modify fun _ => rfl) fun _ => .bind (.modify fun _ => rfl) fun _ =>
      spares_addUses _ _

theorem spares_replaceUses (hk : Value.Overlooks k) (v : ValueId) (o : Operand) :
    Spares k (replaceUses v o) := fun _ =>
  yields_replaceUses_of (fun _ hg => hg)
    (fun _ _ hg => (Graph.survey_updateValue fun x _ => hk.replace _ _ x).trans hg)
    (fun _ _ hg => hg) fun g u hg => (g.survey_addUses u [o]).trans hg

/-- A phi that takes one more operand is still a phi. -/
theorem spares_pushIncoming (hk : Value.Overlooks k) (v : ValueId) (o : Operand) (q : BlockId) :
    Spares k (pushIncoming v o q) := by
  intro c g hg
  unfold pushIncoming
  rw [Leaves.bind_iff]
  refine Graph.leaves_value (fun _ => hg) fun x hx => ?_
  cases hkind : x.kind with
  | instr i => exact hg
  | phi p =>
    have hself : ∀ y, g.value? v = some y →
        k { y with kind := .phi { p with incoming := p.incoming ++ [(o, q)] } } = k y := by
      intro y hy
      cases hx.symm.trans hy
      refine hk.kind x _ ?_
      unfold Value.isPhi
      rw [hkind]
    dsimp only
    rw [Leaves.bind_iff, Leaves.modify_iff, Leaves.modify_iff]
    exact ⟨(Graph.survey_addUses _ _ _).trans ((Graph.survey_updateValue hself).trans hg), trivial⟩

/-- Where `k` does not see which block lists a value, a detached one is seen as before. -/
theorem spares_detach (hk : ∀ x : Value, k { x with block := none } = k x) (v : ValueId) :
    Spares k (detach v) := by
  refine .bind (fun _ => yields_seeValue v) fun x => ?_
  split
  · exact fun _ => .pure trivial
  · exact (spares_updateBlock _ _).bind fun _ =>
      .bind (.modify fun g => g.survey_removeUses _ _) fun _ =>
        .modify fun _ => Graph.survey_updateValue fun x _ => hk x

/-! ## 3. Operations that change it -/

/-- A new phi, or no change at all. -/
theorem leaves_appendPhi (b : BlockId) (x : VarId) (ty : Ty) (g : Graph) :
    Leaves (appendPhi b x ty) g (fun _ t => t = g) fun v t =>
      v = g.nextValue ∧ t = g.withPhi b x ty := by
  unfold appendPhi
  rw [Leaves.bind_iff]
  exact Graph.leaves_block (fun _ => rfl) fun _ _ => ⟨rfl, rfl⟩

/-- A new instruction, or no change at all. -/
theorem leaves_insertInstr (b : BlockId) (position : Option Nat) (ty : Ty) (origin : Origin)
    (i : Instr) (g : Graph) :
    Leaves (insertInstr b position ty origin i) g (fun _ t => t = g) fun _ t =>
      ∃ place, t = g.withInstr b place ty origin i := by
  unfold insertInstr
  rw [Leaves.bind_iff]
  refine Graph.leaves_block (fun _ => rfl) fun y _ => ?_
  dsimp only
  split
  · rfl
  · exact ⟨_, rfl⟩

/-- An attached value leaves its block, or nothing changes at all. -/
theorem leaves_detach_of_attached {v : ValueId} {x : Value} {b : BlockId} {g : Graph}
    (hx : g.value? v = some x) (hb : x.block = some b) :
    Leaves (detach v) g (fun _ t => t = g) fun _ t => t = g.without v x b := by
  unfold detach updateBlock
  rw [Leaves.bind_iff]
  refine Graph.leaves_value (fun _ => rfl) fun x' hx' => ?_
  cases hx.symm.trans hx'
  rw [hb]
  dsimp only
  rw [Leaves.bind_iff, Leaves.bind_iff]
  exact Graph.leaves_block (fun _ => rfl) fun _ _ => rfl

end Edit

/-! ## 4. Invariants of graph and tables -/

/-- **Of the graph the invariant sees what `k` sees of its values**, and an instruction that is
    added does not break it. -/
structure Tracked.Surveys (k : Value → β) (I : Tracked → Prop) : Prop where
  overlooks : Value.Overlooks k
  onGraph : ∀ {s : Tracked} {g : Graph}, I s → g.survey k = s.graph.survey k → I ⟨g, s.reaching⟩
  withInstr : ∀ {s : Tracked}, I s → ∀ b place ty origin i,
    I ⟨s.graph.withInstr b place ty origin i, s.reaching⟩

namespace Tracked.Surveys

variable {I : Tracked → Prop}

/-- What leaves the survey alone keeps the invariant, -/
theorem yields (hI : Surveys k I) {x : Edit α} (hx : Edit.Spares k x) :
    Yields I (fun _ => True) (liftM x : Track α) := fun s hs =>
  (Leaves.focus_iff x).2 ((hx _ s.graph rfl).mono (fun _ _ hg => hI.onGraph hs hg)
    fun _ _ hg => ⟨hI.onGraph hs hg.1, trivial⟩)

/-- and so does an instruction that is added. -/
theorem yields_insertInstr (hI : Surveys k I) (b : BlockId) (position : Option Nat) (ty : Ty)
    (origin : Origin) (i : Instr) :
    Yields I (fun _ => True) (liftM (Edit.insertInstr b position ty origin i) : Track ValueId) := by
  refine fun s hs => (Leaves.focus_iff _).2 ?_
  refine (Edit.leaves_insertInstr b position ty origin i s.graph).mono (fun _ g hg => ?_)
    fun _ g hg => ?_
  · exact hg ▸ hs
  · obtain ⟨place, rfl⟩ := hg
    exact ⟨hI.withInstr hs b place ty origin i, trivial⟩

end Tracked.Surveys

end BitFlow
