import BitFlow.Proofs.Graph.Revision
import BitFlow.Proofs.Graph.Steady
import BitFlow.Reaching.Read

/-!
# Reading touches nothing that is there

Reading a variable makes phis and may remove some in a cascade, but none that was there before: a
new phi is used by new phis only, so no cascade that starts at one leads to an old one.

This holds whether the read comes to an answer or to a fault, and the invariant that carries it
(`Graph.Outgrows`) asks nothing of the state but that nobody refers to values that are not there.

Main statements: `Track.above_read` -- nothing that was there is touched; `Graph.Holds`,
`Leaves.holds` -- so nothing is altered or lost, and an operand that was attached still is.
-/

namespace BitFlow

/-! ## 1. Graphs with values of their own -/

/-- The graph has no value of that name yet. -/
def Graph.Lacks (g : Graph) (v : ValueId) : Prop := g.values.size ≤ v.index

/-- The user is a value that the graph does not have yet. -/
def Graph.LacksUser (g : Graph) (u : User) : Prop := ∃ v, u = .value v ∧ g.Lacks v

/-- The block with those of its values that are among the first `n`. -/
def Block.upTo (n : Nat) (y : Block) : Block :=
  { y with
    phis := y.phis.filter (·.index < n)
    instrs := y.instrs.filter (·.index < n) }

/-- **`g` is `g₀` with values of its own**: those of `g₀` are untouched and stand in the blocks as
    they did, and the new ones are used by new ones only. -/
structure Graph.Outgrows (g₀ g : Graph) : Prop where
  size : g₀.values.size ≤ g.values.size
  value : ∀ v, v.index < g₀.values.size → g.value? v = g₀.value? v
  block : ∀ b, (g.block? b).map (Block.upTo g₀.values.size) =
    (g₀.block? b).map (Block.upTo g₀.values.size)
  users : ∀ v, g₀.Lacks v → ∀ u ∈ g.users v, g₀.LacksUser u

namespace Graph.Outgrows

variable {g₀ g g' : Graph}

/-- In a steady graph nobody refers to a value that is not there. -/
theorem refl (h : g.Steady) : g.Outgrows g := by
  refine ⟨Nat.le_refl _, fun _ _ => rfl, fun _ => rfl, fun v hv u hu => ?_⟩
  exact absurd (h.knows ((h.orderly.mem_users v u).1 hu)) (Nat.not_lt.2 hv)

theorem lacks_next (h : g₀.Outgrows g) : g₀.Lacks g.nextValue := h.size

/-- Only the table of users changes. -/
theorem reuse (h : g₀.Outgrows g) (hv : g'.values = g.values) (hb : g'.blocks = g.blocks)
    (hu : ∀ v, g₀.Lacks v → ∀ u ∈ g'.users v, g₀.LacksUser u) : g₀.Outgrows g' := by
  have hvalue : ∀ v, g'.value? v = g.value? v := fun v => congrArg (·[v.index]?) hv
  have hblock : ∀ b, g'.block? b = g.block? b := fun b => congrArg (·[b.index]?) hb
  refine ⟨?_, fun v hlt => (hvalue v).trans (h.value v hlt), fun b => ?_, hu⟩
  · rw [hv]
    exact h.size
  · rw [hblock]
    exact h.block b

theorem addUses (h : g₀.Outgrows g) {u : User} (hu : g₀.LacksUser u) (ops : List Operand) :
    g₀.Outgrows (g.addUses u ops) := by
  refine h.reuse ?_ ?_ fun v hv u' hu' => ?_
  · rw [addUses_eq]
  · rw [addUses_eq]
  · rw [mem_users_addUses] at hu'
    rcases hu' with ⟨rfl, -⟩ | hu'
    · exact hu
    · exact h.users v hv u' hu'

theorem removeUses (h : g₀.Outgrows g) (u : User) (ops : List Operand) :
    g₀.Outgrows (g.removeUses u ops) := by
  refine h.reuse ?_ ?_ fun v hv u' hu' => ?_
  · rw [removeUses_eq]
  · rw [removeUses_eq]
  · rw [mem_users_removeUses] at hu'
    exact h.users v hv u' hu'.1

theorem drop (h : g₀.Outgrows g) (v : ValueId) : g₀.Outgrows { g with uses := g.uses.drop v } := by
  refine h.reuse rfl rfl fun w hw u hu => ?_
  exact h.users w hw u ((g.uses.mem_image_drop v w u).1 hu).1

theorem updateValue (h : g₀.Outgrows g) {v : ValueId} (hv : g₀.Lacks v) (f : Value → Value) :
    g₀.Outgrows (g.updateValue v f) := by
  refine ⟨?_, fun w hw => ?_, h.block, h.users⟩
  · show g₀.values.size ≤ (g.values.modify v.index f).size
    rw [Array.size_modify]
    exact h.size
  · rw [value?_updateValue, if_neg]
    · exact h.value w hw
    · rintro rfl
      exact absurd hw (Nat.not_lt.2 hv)

theorem updateBlock (h : g₀.Outgrows g) (b : BlockId) {f : Block → Block}
    (hf : ∀ y, (f y).upTo g₀.values.size = y.upTo g₀.values.size) :
    g₀.Outgrows (g.updateBlock b f) := by
  refine ⟨h.size, h.value, fun c => ?_, h.users⟩
  rw [← h.block, block?_updateBlock]
  split
  · rw [Option.map_map]
    congr 1
    funext y
    exact hf y
  · rfl

theorem pushValue (h : g₀.Outgrows g) (ty : Ty) (origin : Origin) (b : BlockId)
    (kind : ValueKind) : g₀.Outgrows (g.pushValue ty origin b kind) := by
  refine ⟨?_, fun w hw => ?_, h.block, h.users⟩
  · show g₀.values.size ≤ (g.values.push _).size
    rw [Array.size_push]
    exact Nat.le_succ_of_le h.size
  · rw [value?_pushValue, if_neg]
    · exact h.value w hw
    · rintro rfl
      exact absurd hw (Nat.not_lt.2 h.size)

end Graph.Outgrows

/-- A value that is not among the first `n` may be put into a list. -/
theorem Block.filter_insert {n : Nat} {v : ValueId} (hv : n ≤ v.index) (vs ws : List ValueId) :
    (vs ++ v :: ws).filter (·.index < n) = (vs ++ ws).filter (·.index < n) := by
  rw [List.filter_append, List.filter_append, List.filter_cons_of_neg]
  simpa using hv

/-- It may be taken out as well. -/
theorem Block.filter_remove {n : Nat} {v : ValueId} (hv : n ≤ v.index) (vs : List ValueId) :
    (vs.filter (· ≠ v)).filter (·.index < n) = vs.filter (·.index < n) := by
  rw [List.filter_filter]
  refine List.filter_congr fun w _ => ?_
  by_cases hw : w.index < n
  · have hne : w ≠ v := by
      rintro rfl
      exact absurd hw (Nat.not_lt.2 hv)
    simp [hw, hne]
  · simp [hw]

/-! ## 2. Operations on the graph -/

namespace Edit

variable {g₀ : Graph}

open BitFlow.Graph (Outgrows)

theorem outgrows_appendPhi (b : BlockId) (x : VarId) (ty : Ty) :
    Yields g₀.Outgrows g₀.Lacks (appendPhi b x ty) := by
  refine (yields_seeBlock b).bind fun _ _ => .look fun g hg => ?_
  refine .bind (.set (hg.pushValue ty _ b _)) fun _ _ => ?_
  refine .bind (.modify fun _ h => h.updateBlock b fun y => ?_) fun _ _ => .pure hg.lacks_next
  unfold Block.upTo
  rw [Block.filter_insert hg.lacks_next, List.append_nil]

theorem outgrows_insertInstr (b : BlockId) (position : Option Nat) (ty : Ty) (origin : Origin)
    (i : Instr) : Yields g₀.Outgrows (fun _ => True) (insertInstr b position ty origin i) := by
  refine (yields_seeBlock b).bind fun y _ => ?_
  dsimp only
  split
  · exact .throw _
  refine .look fun g hg => .bind (.set (hg.pushValue ty _ b _)) fun _ _ => ?_
  refine .bind (.modify fun _ h => h.updateBlock b fun y => ?_) fun _ _ => ?_
  · unfold Block.upTo
    rw [Block.filter_insert hg.lacks_next, List.take_append_drop]
  · exact .bind (.modify fun _ h => h.addUses ⟨_, rfl, hg.lacks_next⟩ _) fun _ _ => .pure trivial

theorem outgrows_updateValue {v : ValueId} (hv : g₀.Lacks v) (f : Value → Value) :
    Yields g₀.Outgrows (fun _ => True) (updateValue v f) :=
  (yields_seeValue v).bind fun _ _ => .modify fun _ h => h.updateValue hv f

theorem outgrows_pushIncoming {v : ValueId} (hv : g₀.Lacks v) (o : Operand) (q : BlockId) :
    Yields g₀.Outgrows (fun _ => True) (pushIncoming v o q) := by
  refine (yields_seeValue v).bind fun x _ => ?_
  split
  · exact .throw _
  · refine .bind (.modify fun _ h => h.updateValue hv _) fun _ _ => ?_
    exact .modify fun _ h => h.addUses ⟨v, rfl, hv⟩ _

/-- Whoever uses a new value is new, and no branch. -/
theorem outgrows_replaceUses {v : ValueId} (hv : g₀.Lacks v) (o : Operand) :
    Yields g₀.Outgrows (fun former => ∀ u ∈ former, g₀.LacksUser u) (replaceUses v o) := by
  refine .look fun g hg => .bind (.modify fun _ h => h.drop v) fun _ _ => ?_
  refine .bind (.forM_mem _ fun u hu => ?_) fun _ _ => .pure (hg.users v hv)
  obtain ⟨w, rfl, hw⟩ := hg.users v hv u hu
  exact .bind (outgrows_updateValue hw _) fun _ _ => .modify fun _ h => h.addUses ⟨w, rfl, hw⟩ _

theorem outgrows_detach {v : ValueId} (hv : g₀.Lacks v) :
    Yields g₀.Outgrows (fun _ => True) (detach v) := by
  refine (yields_seeValue v).bind fun x _ => ?_
  split
  · exact .pure trivial
  · rename_i b _
    refine .bind ((yields_seeBlock b).bind fun _ _ =>
      .modify fun _ h => h.updateBlock b fun y => ?_) fun _ _ => ?_
    · unfold Block.upTo
      split
      · rw [Block.filter_remove hv]
      · rw [Block.filter_remove hv]
    · refine .bind (.modify fun _ h => h.removeUses _ _) fun _ _ => ?_
      exact .modify fun _ h => h.updateValue hv _

end Edit

/-! ## 3. Reading -/

namespace Track

variable {α : Type} {g₀ : Graph}

open BitFlow.Graph (Outgrows)

/-- The graph of the state is `g₀` with values of its own. -/
def Above (g₀ : Graph) (s : Tracked) : Prop := g₀.Outgrows s.graph

theorem above_edit {A : α → Prop} {x : Edit α} (hx : Yields g₀.Outgrows A x) :
    Yields (Above g₀) A (liftM x : Track α) :=
  .focus (fun _ h => h) (fun _ _ _ h => h) hx

theorem above_onTables (f : Reaching → Reaching) :
    Yields (Above g₀) (fun _ => True) (onTables f) := .modify fun _ h => h

theorem above_declaration (x : VarId) : Yields (Above g₀) (fun _ => True) (declaration x) := by
  refine .look fun s _ => ?_
  split
  · exact .pure trivial
  · exact .throw _

theorem above_nameAfter (x : VarId) {v : ValueId} (hv : g₀.Lacks v) :
    Yields (Above g₀) (fun _ => True) (nameAfter x (.value v)) := by
  refine .look fun s _ => ?_
  split
  · refine .bind (above_edit (Edit.yields_seeValue v)) fun y _ => ?_
    split
    · refine .look fun s _ => .bind (above_declaration x) fun d _ => ?_
      refine .bind (above_onTables _) fun _ _ => ?_
      exact above_edit (Edit.outgrows_updateValue hv _)
    · exact .pure trivial
  · exact .pure trivial

theorem above_newPhi (b : BlockId) (x : VarId) : Yields (Above g₀) g₀.Lacks (newPhi b x) := by
  refine .bind (above_declaration x) fun d _ => ?_
  refine .bind (above_edit (Edit.outgrows_appendPhi b x d.ty)) fun v hv => ?_
  refine .bind (above_onTables _) fun _ _ => ?_
  exact .bind (above_nameAfter x hv) fun _ _ => .pure hv

theorem above_retire {v : ValueId} (hv : g₀.Lacks v) (o : Operand) :
    Yields (Above g₀) (fun former => ∀ u ∈ former, g₀.LacksUser u) (retire v o) := by
  refine .bind (above_edit (Edit.outgrows_replaceUses hv o)) fun former hformer => ?_
  refine .bind (above_edit (Edit.outgrows_detach hv)) fun _ _ => ?_
  refine .bind (above_edit (.modify fun _ h => h.reuse rfl rfl h.users)) fun _ _ => ?_
  exact .bind (above_onTables _) fun _ _ => .pure hformer

theorem above_resolve (o : Operand) :
    Yields (Above g₀) (fun _ => True) (liftM (Edit.resolve o) : Track Operand) :=
  above_edit (.look fun _ _ => .pure trivial)

/-- **A cascade that starts at a new phi reaches new phis only.** -/
theorem above_removeTrivialWithin (n : Nat) {v : ValueId} (hv : g₀.Lacks v) :
    Yields (Above g₀) (fun _ => True) (removeTrivialWithin n v) := by
  induction n generalizing v with
  | zero => exact .throw _
  | succ n ih =>
    refine .bind (above_edit (Edit.yields_seeValue v)) fun x _ => ?_
    split
    · refine .bind (A := fun _ => True) (.look fun s _ => ?_) fun o? _ => ?_
      · split
        · exact .pure trivial
        · exact .throw _
      split
      · exact .pure trivial
      · refine .bind (above_retire hv _) fun former hformer => ?_
        refine .bind (.forM_mem former fun u hu => ?_) fun _ _ => above_resolve _
        obtain ⟨w, rfl, hw⟩ := hformer u hu
        refine .look fun s _ => ?_
        split
        · exact .pure trivial
        · refine .bind (above_edit (Edit.yields_seeValue w)) fun y _ => ?_
          split
          · exact (ih hw).discard
          · exact .pure trivial
    · exact above_resolve _

theorem above_fillWith {read : BlockId → Track Operand}
    (hread : ∀ q, Yields (Above g₀) (fun _ => True) (read q)) {v : ValueId} (hv : g₀.Lacks v) :
    Yields (Above g₀) (fun _ => True) (fillWith read v) := by
  refine .bind (above_edit (Edit.yields_seeValue v)) fun x _ => ?_
  split
  · exact .throw _
  · refine .bind (above_edit (Edit.yields_seeBlock _)) fun y _ => ?_
    refine .bind (above_onTables _) fun _ _ => ?_
    refine .bind (.forM (fun q => ?_) _) fun _ _ => ?_
    · exact .bind (hread q) fun o _ => above_edit (Edit.outgrows_pushIncoming hv o q)
    · refine .bind (above_onTables _) fun _ _ => ?_
      exact .look fun s _ => above_removeTrivialWithin _ hv

theorem above_readThrough {read : BlockId → Track Operand}
    (hread : ∀ q, Yields (Above g₀) (fun _ => True) (read q)) (x : VarId) (b : BlockId) :
    Yields (Above g₀) (fun _ => True) (readThrough read x b) := by
  refine .bind (above_declaration x) fun d _ => ?_
  refine .bind (above_edit (Edit.yields_seeBlock b)) fun y _ => ?_
  split
  · split
    · exact .pure trivial
    · exact hread _
    · refine .bind (above_newPhi b x) fun v hv => .bind (above_onTables _) fun _ _ => ?_
      exact above_fillWith hread hv
  · exact .bind (above_newPhi b x) fun v _ => .bind (above_onTables _) fun _ _ => .pure trivial

theorem above_readWithin (n : Nat) (x : VarId) (b : BlockId) :
    Yields (Above g₀) (fun _ => True) (readWithin n x b) := by
  induction n generalizing b with
  | zero =>
    unfold readWithin
    refine .look fun s _ => ?_
    split
    · exact above_resolve _
    · exact .throw _
  | succ n ih =>
    unfold readWithin
    refine .look fun s _ => ?_
    split
    · exact above_resolve _
    · refine .bind (above_readThrough ih x b) fun o _ => .bind (above_resolve o) fun o _ => ?_
      exact .bind (above_onTables _) fun _ _ => .pure trivial

/-- **A read touches nothing that was there before it.** -/
theorem above_read (x : VarId) (b : BlockId) :
    Yields (Above g₀) (fun _ => True) (read x b) := .look fun _ _ => above_readWithin _ x b

end Track

/-! ## 4. What is held -/

/-- **Nothing that `g` has is altered or lost in `g'`**: its values are as they were, its blocks
    list them in the same order, and a value that has been removed since is one that `g` does not
    have. -/
structure Graph.Holds (g g' : Graph) : Prop where
  value : ∀ {v x}, g.value? v = some x → g'.value? v = some x
  block : ∀ {b y}, g.block? b = some y → ∃ y', g'.block? b = some y' ∧
    y'.phis.filter (fun v => (g.value? v).isSome) = y.phis ∧
      y'.instrs.filter (fun v => (g.value? v).isSome) = y.instrs
  removed : ∀ {v}, g'.Removed v → ¬ g.Removed v → g.value? v = none

namespace Graph

variable {g g' : Graph}

theorem Holds.anchors (h : g.Holds g') {o : Operand} (ho : g.Anchors o) : g'.Anchors o := by
  intro v hv
  obtain ⟨x, hx, ha⟩ := ho v hv
  exact ⟨x, h.value hx, ha⟩

theorem isSome_value? (g : Graph) (v : ValueId) :
    (g.value? v).isSome = decide (v.index < g.values.size) := by
  rw [Bool.eq_iff_iff, decide_eq_true_iff, Option.isSome_iff_exists]
  exact ⟨fun ⟨_, hx⟩ => index_lt_of_value? hx, fun hv => exists_value? hv⟩

theorem Outgrows.holds (h : g.Outgrows g') (hg : g.Listed) : g.Holds g' := by
  have hvalue : ∀ {v x}, g.value? v = some x → g'.value? v = some x := fun {v x} hx =>
    (h.value v (index_lt_of_value? hx)).trans hx
  refine ⟨hvalue, fun {b y} hy => ?_, fun {v} hr hn => ?_⟩
  · have hblock := h.block b
    rw [hy, Option.map_some] at hblock
    obtain ⟨y', hy', hsame⟩ := Option.map_eq_some_iff.1 hblock
    -- all that a block of `g` lists is in `g`
    have hphis : y.phis.filter (·.index < g.values.size) = y.phis := by
      refine List.filter_eq_self.2 fun v hv => ?_
      obtain ⟨x, hx, -⟩ := (hg.mem_phis hy v).1 hv
      exact decide_eq_true (index_lt_of_value? hx)
    have hinstrs : y.instrs.filter (·.index < g.values.size) = y.instrs := by
      refine List.filter_eq_self.2 fun v hv => ?_
      obtain ⟨x, hx, -⟩ := (hg.mem_instrs hy v).1 hv
      exact decide_eq_true (index_lt_of_value? hx)
    refine ⟨y', hy', ?_, ?_⟩
    · rw [funext g.isSome_value?]
      exact (congrArg Block.phis hsame).trans hphis
    · rw [funext g.isSome_value?]
      exact (congrArg Block.instrs hsame).trans hinstrs
  · obtain ⟨x', hx', ha'⟩ := hr
    cases hx : g.value? v with
    | none => rfl
    | some x =>
      cases hx'.symm.trans (hvalue hx)
      exact absurd ⟨x', hx, ha'⟩ hn

end Graph

/-- What an action holds that touches nothing of any graph it starts in. -/
theorem Leaves.holds {σ α : Type} (graph : σ → Graph) {x : EStateM Fault σ α} {s : σ}
    (h : (graph s).Steady)
    (hx : ∀ g₀ : Graph, Yields (fun t => g₀.Outgrows (graph t)) (fun _ => True) x) :
    Leaves x s (fun _ t => (graph s).Holds (graph t)) fun _ t => (graph s).Holds (graph t) :=
  (hx (graph s) s (.refl h)).mono (fun _ _ ht => ht.holds h.orderly.toListed)
    fun _ _ ht => ht.1.holds h.orderly.toListed

/-- What was there before a read is held. -/
theorem Track.holds_of_run {s t : Tracked} {x : VarId} {b : BlockId} {o : Operand}
    (h : s.graph.Steady) (run : (read x b).run s = .ok o t) : s.graph.Holds t.graph :=
  (Leaves.holds Tracked.graph h fun _ => above_read x b).of_ok run

end BitFlow
