import BitFlow.Graph.Edit
import BitFlow.Proofs.Outcome

/-!
# Graphs in order

A graph stores several things twice: a value names its block and the block lists the value; a
branch names its target and the target lists where it comes from; a value names its operands and
the table of users lists who names it. `Graph.Orderly` says that each pair agrees.

Main statements, one per operation that builds a graph: `Graph.Orderly.pushBlock`,
`Graph.Orderly.link`, `Graph.Orderly.withInstr`, `Graph.Orderly.withPhi` and
`Graph.Orderly.withIncoming` -- each of them keeps a graph in order.
-/

namespace BitFlow

namespace Graph

/-! ## 1. Look-ups after an update -/

theorem block?_pushBlock (g : Graph) (label : String) (kind : BlockKind) (b : BlockId) :
    (g.pushBlock label kind).block? b =
      if b = g.nextBlock then some (.fresh g.nextBlock label kind) else g.block? b := by
  cases b
  simp [pushBlock, block?, nextBlock, Array.getElem?_push]

@[simp] theorem value?_pushBlock (g : Graph) (label : String) (kind : BlockKind) (v : ValueId) :
    (g.pushBlock label kind).value? v = g.value? v := rfl

@[simp] theorem users_pushBlock (g : Graph) (label : String) (kind : BlockKind) (v : ValueId) :
    (g.pushBlock label kind).users v = g.users v := rfl

theorem value?_pushValue (g : Graph) (ty : Ty) (origin : Origin) (b : BlockId) (kind : ValueKind)
    (v : ValueId) :
    (g.pushValue ty origin b kind).value? v =
      if v = g.nextValue then some ⟨g.nextValue, ty, none, origin, some b, kind⟩
      else g.value? v := by
  cases v
  simp [pushValue, value?, nextValue, Array.getElem?_push]

@[simp] theorem block?_pushValue (g : Graph) (ty : Ty) (origin : Origin) (b : BlockId)
    (kind : ValueKind) (c : BlockId) : (g.pushValue ty origin b kind).block? c = g.block? c := rfl

@[simp] theorem users_pushValue (g : Graph) (ty : Ty) (origin : Origin) (b : BlockId)
    (kind : ValueKind) (v : ValueId) : (g.pushValue ty origin b kind).users v = g.users v := rfl

theorem block?_nextBlock (g : Graph) : g.block? g.nextBlock = none := by
  simp [block?, nextBlock]

theorem value?_nextValue (g : Graph) : g.value? g.nextValue = none := by
  simp [value?, nextValue]

theorem index_lt_of_value? {g : Graph} {v : ValueId} {x : Value} (h : g.value? v = some x) :
    v.index < g.values.size :=
  (Array.getElem?_eq_some_iff.1 h).1

theorem index_lt_of_block? {g : Graph} {b : BlockId} {y : Block} (h : g.block? b = some y) :
    b.index < g.blocks.size :=
  (Array.getElem?_eq_some_iff.1 h).1

theorem exists_value? {g : Graph} {v : ValueId} (h : v.index < g.values.size) :
    ∃ x, g.value? v = some x :=
  ⟨_, Array.getElem?_eq_getElem h⟩

theorem exists_block? {g : Graph} {b : BlockId} (h : b.index < g.blocks.size) :
    ∃ y, g.block? b = some y :=
  ⟨_, Array.getElem?_eq_getElem h⟩

/-! ## 2. Changes of the table of users -/

/-- Adding users changes the table of users only. -/
theorem addUses_eq (g : Graph) (u : User) (ops : List Operand) :
    g.addUses u ops = { g with uses := (g.addUses u ops).uses } := by
  unfold addUses
  generalize ops.filterMap Operand.value? = vs
  induction vs generalizing g with
  | nil => rfl
  | cons v vs ih =>
    rw [List.foldl_cons, ih]
    rfl

/-- Removing users changes the table of users only. -/
theorem removeUses_eq (g : Graph) (u : User) (ops : List Operand) :
    g.removeUses u ops = { g with uses := (g.removeUses u ops).uses } := by
  unfold removeUses
  generalize ops.filterMap Operand.value? = vs
  induction vs generalizing g with
  | nil => rfl
  | cons v vs ih =>
    rw [List.foldl_cons, ih]
    rfl

@[simp] theorem value?_addUses (g : Graph) (u : User) (ops : List Operand) (v : ValueId) :
    (g.addUses u ops).value? v = g.value? v := by
  rw [addUses_eq]
  rfl

@[simp] theorem block?_addUses (g : Graph) (u : User) (ops : List Operand) (b : BlockId) :
    (g.addUses u ops).block? b = g.block? b := by
  rw [addUses_eq]
  rfl

@[simp] theorem value?_removeUses (g : Graph) (u : User) (ops : List Operand) (v : ValueId) :
    (g.removeUses u ops).value? v = g.value? v := by
  rw [removeUses_eq]
  rfl

@[simp] theorem block?_removeUses (g : Graph) (u : User) (ops : List Operand) (b : BlockId) :
    (g.removeUses u ops).block? b = g.block? b := by
  rw [removeUses_eq]
  rfl

@[simp] theorem entry_addUses (g : Graph) (u : User) (ops : List Operand) :
    (g.addUses u ops).entry = g.entry := by
  rw [addUses_eq]

@[simp] theorem forwards_addUses (g : Graph) (u : User) (ops : List Operand) :
    (g.addUses u ops).forwards = g.forwards := by
  rw [addUses_eq]

theorem mem_filterMap_value? (v : ValueId) (ops : List Operand) :
    v ∈ ops.filterMap Operand.value? ↔ Operand.value v ∈ ops := by
  rw [List.mem_filterMap]
  constructor
  · rintro ⟨o, ho, h⟩
    cases o with
    | value w =>
      cases h
      exact ho
    | lit c => cases h
    | undef ty => cases h
  · exact fun h => ⟨_, h, rfl⟩

theorem mem_users_addUses (g : Graph) (u u' : User) (ops : List Operand) (v : ValueId) :
    u' ∈ (g.addUses u ops).users v ↔ (u' = u ∧ .value v ∈ ops) ∨ u' ∈ g.users v := by
  rw [← mem_filterMap_value?]
  unfold addUses
  generalize ops.filterMap Operand.value? = vs
  induction vs generalizing g with
  | nil => simp
  | cons w vs ih =>
    rw [List.foldl_cons, ih, users_addUser, List.mem_cons]
    constructor
    · rintro (⟨h, hv⟩ | ⟨h, h'⟩ | h)
      · exact .inl ⟨h, .inr hv⟩
      · exact .inl ⟨h', .inl h.symm⟩
      · exact .inr h
    · rintro (⟨h, hv | hv⟩ | h)
      · exact .inr (.inl ⟨hv.symm, h⟩)
      · exact .inl ⟨h, hv⟩
      · exact .inr (.inr h)

theorem mem_users_removeUses (g : Graph) (u u' : User) (ops : List Operand) (v : ValueId) :
    u' ∈ (g.removeUses u ops).users v ↔ u' ∈ g.users v ∧ ¬ (u' = u ∧ .value v ∈ ops) := by
  rw [← mem_filterMap_value?]
  unfold removeUses
  generalize ops.filterMap Operand.value? = vs
  induction vs generalizing g with
  | nil => simp
  | cons w vs ih =>
    rw [List.foldl_cons, ih, users_removeUser, List.mem_cons]
    constructor
    · rintro ⟨⟨h, hn⟩, hn'⟩
      refine ⟨h, ?_⟩
      rintro ⟨rfl, rfl | hv⟩
      · exact hn ⟨rfl, rfl⟩
      · exact hn' ⟨rfl, hv⟩
    · rintro ⟨h, hn⟩
      exact ⟨⟨h, fun hc => hn ⟨hc.2, .inl hc.1.symm⟩⟩, fun hc => hn ⟨hc.1, .inr hc.2⟩⟩

/-- Adding a user leaves alone the values that are not named. -/
theorem users_addUses_of_not_mem (g : Graph) (u : User) {ops : List Operand} {v : ValueId}
    (hv : .value v ∉ ops) : (g.addUses u ops).users v = g.users v := by
  rw [← mem_filterMap_value?] at hv
  unfold addUses
  revert hv
  generalize ops.filterMap Operand.value? = vs
  intro hv
  induction vs generalizing g with
  | nil => rfl
  | cons w vs ih =>
    rw [List.mem_cons, not_or] at hv
    obtain ⟨hne, hvs⟩ := hv
    rw [List.foldl_cons, ih _ hvs]
    exact (Multimap.image_setImage _ _ _ _).trans (if_neg (Ne.symm hne))

/-- Removing a user leaves alone the values that are not named. -/
theorem users_removeUses_of_not_mem (g : Graph) (u : User) {ops : List Operand} {v : ValueId}
    (hv : .value v ∉ ops) : (g.removeUses u ops).users v = g.users v := by
  rw [← mem_filterMap_value?] at hv
  unfold removeUses
  revert hv
  generalize ops.filterMap Operand.value? = vs
  intro hv
  induction vs generalizing g with
  | nil => rfl
  | cons w vs ih =>
    rw [List.mem_cons, not_or] at hv
    obtain ⟨hne, hvs⟩ := hv
    rw [List.foldl_cons, ih _ hvs]
    exact (Multimap.image_setImage _ _ _ _).trans (if_neg (Ne.symm hne))

/-! ## 3. Order -/

/-- Who refers to a value: an attached value with the value among its operands, or a block with a
    branch on it. -/
def Refers (g : Graph) (v : ValueId) : User → Prop
  | .value w => ∃ x, g.value? w = some x ∧ x.isAttached = true ∧ Operand.value v ∈ x.operands
  | .branch b => ∃ y, g.block? b = some y ∧ ∃ br ∈ y.branches, br.cond = some (.value v)

theorem refers_value (g : Graph) (v w : ValueId) :
    g.Refers v (.value w) ↔
      ∃ x, g.value? w = some x ∧ x.isAttached = true ∧ Operand.value v ∈ x.operands := Iff.rfl

theorem refers_branch (g : Graph) (v : ValueId) (b : BlockId) :
    g.Refers v (.branch b) ↔
      ∃ y, g.block? b = some y ∧ ∃ br ∈ y.branches, br.cond = some (.value v) := Iff.rfl

/-- Names are places, and blocks list exactly the values they own, each once. -/
structure Listed (g : Graph) : Prop where
  block_id : ∀ {b y}, g.block? b = some y → y.id = b
  value_id : ∀ {v x}, g.value? v = some x → x.id = v
  owner_known : ∀ {v x b}, g.value? v = some x → x.block = some b → ∃ y, g.block? b = some y
  mem_phis : ∀ {b y}, g.block? b = some y → ∀ v,
    v ∈ y.phis ↔ ∃ x, g.value? v = some x ∧ x.block = some b ∧ x.isPhi = true
  mem_instrs : ∀ {b y}, g.block? b = some y → ∀ v,
    v ∈ y.instrs ↔ ∃ x, g.value? v = some x ∧ x.block = some b ∧ x.isPhi = false
  nodup_phis : ∀ {b y}, g.block? b = some y → y.phis.Nodup
  nodup_instrs : ∀ {b y}, g.block? b = some y → y.instrs.Nodup

/-- Predecessors are exactly the sources of branches, each once, and every target exists. -/
structure Linked (g : Graph) : Prop where
  entry_known : ∃ y, g.block? g.entry = some y
  nodup_preds : ∀ {b y}, g.block? b = some y → y.preds.Nodup
  mem_preds : ∀ {b y}, g.block? b = some y → ∀ p,
    p ∈ y.preds ↔ ∃ z, g.block? p = some z ∧ ∃ br ∈ z.branches, br.target = b
  target_known : ∀ {p z br}, g.block? p = some z → br ∈ z.branches →
    ∃ y, g.block? br.target = some y

/-- **A graph in order**: blocks list the values they own, predecessors mirror branches, and the
    users of a value are exactly those who refer to it. -/
structure Orderly (g : Graph) : Prop extends Listed g, Linked g where
  mem_users : ∀ v u, u ∈ g.users v ↔ g.Refers v u

/-- The user `u` is there. -/
def KnowsUser (g : Graph) : User → Prop
  | .value w => ∃ x, g.value? w = some x
  | .branch b => ∃ y, g.block? b = some y

theorem Orderly.knowsUser {g : Graph} (h : g.Orderly) {v : ValueId} {u : User}
    (hu : u ∈ g.users v) : g.KnowsUser u := by
  have hrefers := (h.mem_users v u).1 hu
  cases u with
  | value w => exact hrefers.imp fun _ hx => hx.1
  | branch b => exact hrefers.imp fun _ hy => hy.1

/-- What blocks list stays right under changes that leave lists, owners and kinds of value
    alone. -/
theorem Listed.map {g g' : Graph} (h : g.Listed) {F : BlockId → Block → Block}
    {G : ValueId → Value → Value} (hF : ∀ b, g'.block? b = (g.block? b).map (F b))
    (hG : ∀ v, g'.value? v = (g.value? v).map (G v))
    (hFb : ∀ b y, g.block? b = some y →
      (F b y).id = y.id ∧ (F b y).phis = y.phis ∧ (F b y).instrs = y.instrs)
    (hGv : ∀ v x, g.value? v = some x →
      (G v x).id = x.id ∧ (G v x).block = x.block ∧ (G v x).isPhi = x.isPhi) : g'.Listed := by
  have hval : ∀ (v : ValueId) (b : BlockId) (k : Bool),
      (∃ x, g'.value? v = some x ∧ x.block = some b ∧ x.isPhi = k) ↔
        ∃ x, g.value? v = some x ∧ x.block = some b ∧ x.isPhi = k := by
    intro v b k
    constructor
    · rintro ⟨x', hx', hb, hk⟩
      rw [hG] at hx'
      obtain ⟨x, hx, rfl⟩ := Option.map_eq_some_iff.1 hx'
      obtain ⟨-, e2, e3⟩ := hGv v x hx
      exact ⟨x, hx, e2 ▸ hb, e3 ▸ hk⟩
    · rintro ⟨x, hx, hb, hk⟩
      obtain ⟨-, e2, e3⟩ := hGv v x hx
      exact ⟨G v x, by rw [hG, hx]; rfl, by rw [e2, hb], by rw [e3, hk]⟩
  refine ⟨?_, ?_, ?_, ?_, ?_, ?_, ?_⟩
  · intro b y' hy'
    rw [hF] at hy'
    obtain ⟨y, hy, rfl⟩ := Option.map_eq_some_iff.1 hy'
    rw [(hFb b y hy).1, h.block_id hy]
  · intro v x' hx'
    rw [hG] at hx'
    obtain ⟨x, hx, rfl⟩ := Option.map_eq_some_iff.1 hx'
    rw [(hGv v x hx).1, h.value_id hx]
  · intro v x' b hx' hb
    rw [hG] at hx'
    obtain ⟨x, hx, rfl⟩ := Option.map_eq_some_iff.1 hx'
    rw [(hGv v x hx).2.1] at hb
    obtain ⟨y, hy⟩ := h.owner_known hx hb
    exact ⟨F b y, by rw [hF, hy]; rfl⟩
  · intro b y' hy' v
    rw [hF] at hy'
    obtain ⟨y, hy, rfl⟩ := Option.map_eq_some_iff.1 hy'
    rw [(hFb b y hy).2.1, hval]
    exact h.mem_phis hy v
  · intro b y' hy' v
    rw [hF] at hy'
    obtain ⟨y, hy, rfl⟩ := Option.map_eq_some_iff.1 hy'
    rw [(hFb b y hy).2.2, hval]
    exact h.mem_instrs hy v
  · intro b y' hy'
    rw [hF] at hy'
    obtain ⟨y, hy, rfl⟩ := Option.map_eq_some_iff.1 hy'
    rw [(hFb b y hy).2.1]
    exact h.nodup_phis hy
  · intro b y' hy'
    rw [hF] at hy'
    obtain ⟨y, hy, rfl⟩ := Option.map_eq_some_iff.1 hy'
    rw [(hFb b y hy).2.2]
    exact h.nodup_instrs hy

/-- Edges stay right under changes that leave predecessors and targets alone. -/
theorem Linked.map {g g' : Graph} (h : g.Linked) {F : BlockId → Block → Block}
    (he : g'.entry = g.entry) (hF : ∀ b, g'.block? b = (g.block? b).map (F b))
    (hFb : ∀ b y, g.block? b = some y → (F b y).preds = y.preds ∧
      (F b y).branches.map Branch.target = y.branches.map Branch.target) : g'.Linked := by
  have htgt : ∀ {b y} (t : BlockId), g.block? b = some y →
      ((∃ br ∈ (F b y).branches, br.target = t) ↔ ∃ br ∈ y.branches, br.target = t) := by
    intro b y t hy
    rw [← List.mem_map, ← List.mem_map, (hFb b y hy).2]
  have hknown : ∀ {b y}, g.block? b = some y → ∃ y', g'.block? b = some y' :=
    fun {b y} hy => ⟨F b y, by rw [hF, hy]; rfl⟩
  refine ⟨?_, ?_, ?_, ?_⟩
  · obtain ⟨y, hy⟩ := h.entry_known
    rw [he]
    exact hknown hy
  · intro b y' hy'
    rw [hF] at hy'
    obtain ⟨y, hy, rfl⟩ := Option.map_eq_some_iff.1 hy'
    rw [(hFb b y hy).1]
    exact h.nodup_preds hy
  · intro b y' hy' p
    rw [hF] at hy'
    obtain ⟨y, hy, rfl⟩ := Option.map_eq_some_iff.1 hy'
    rw [(hFb b y hy).1, h.mem_preds hy p]
    constructor
    · rintro ⟨z, hz, ht⟩
      exact ⟨F p z, by rw [hF, hz]; rfl, (htgt b hz).2 ht⟩
    · rintro ⟨z', hz', ht⟩
      rw [hF] at hz'
      obtain ⟨z, hz, rfl⟩ := Option.map_eq_some_iff.1 hz'
      exact ⟨z, hz, (htgt b hz).1 ht⟩
  · intro p z' br hz' hbr
    rw [hF] at hz'
    obtain ⟨z, hz, rfl⟩ := Option.map_eq_some_iff.1 hz'
    obtain ⟨br', hbr', ht⟩ := (htgt br.target hz).1 ⟨br, hbr, rfl⟩
    obtain ⟨y, hy⟩ := h.target_known hz hbr'
    rw [ht] at hy
    exact hknown hy

/-- The empty graph is in order. -/
theorem Orderly.fresh (name : String) : (Graph.fresh name).Orderly := by
  have hb : ∀ {b y}, (Graph.fresh name).block? b = some y → b = ⟨0⟩ ∧
      y = Block.fresh ⟨0⟩ "entry" .live := by
    rintro ⟨_ | n⟩ y h
    · exact ⟨rfl, (Option.some.inj h).symm⟩
    · cases h
  have hv : ∀ v, (Graph.fresh name).value? v = none := fun v => rfl
  refine ⟨⟨?_, ?_, ?_, ?_, ?_, ?_, ?_⟩, ⟨⟨_, rfl⟩, ?_, ?_, ?_⟩, ?_⟩
  · intro b y h
    obtain ⟨rfl, rfl⟩ := hb h
    rfl
  · intro v x h
    rw [hv] at h
    cases h
  · intro v x b h
    rw [hv] at h
    cases h
  · intro b y h v
    obtain ⟨rfl, rfl⟩ := hb h
    simp [Block.fresh, hv]
  · intro b y h v
    obtain ⟨rfl, rfl⟩ := hb h
    simp [Block.fresh, hv]
  · intro b y h
    obtain ⟨rfl, rfl⟩ := hb h
    exact List.nodup_nil
  · intro b y h
    obtain ⟨rfl, rfl⟩ := hb h
    exact List.nodup_nil
  · intro b y h
    obtain ⟨rfl, rfl⟩ := hb h
    exact List.nodup_nil
  · intro b y h p
    obtain ⟨rfl, rfl⟩ := hb h
    constructor
    · intro hp
      cases hp
    · rintro ⟨z, hz, br, hbr, _⟩
      obtain ⟨_, rfl⟩ := hb hz
      cases hbr
  · intro p z br h hbr
    obtain ⟨rfl, rfl⟩ := hb h
    cases hbr
  · intro v u
    constructor
    · intro h
      cases h
    · cases u with
      | value w =>
        rintro ⟨x, hx, _⟩
        rw [hv] at hx
        cases hx
      | branch b =>
        rintro ⟨y, hy, br, hbr, _⟩
        obtain ⟨_, rfl⟩ := hb hy
        cases hbr

/-! ## 4. New blocks and edges -/

/-- A block of the graph with one block more is the new one or an old one. -/
theorem block?_of_pushBlock {g : Graph} {label : String} {kind : BlockKind} {b : BlockId}
    {y : Block} (hy : (g.pushBlock label kind).block? b = some y) :
    (b = g.nextBlock ∧ y = .fresh g.nextBlock label kind) ∨ g.block? b = some y := by
  rw [block?_pushBlock] at hy
  split at hy
  · rename_i e
    exact .inl ⟨e, (Option.some.inj hy).symm⟩
  · exact .inr hy

theorem block?_pushBlock_of {g : Graph} {b : BlockId} {y : Block} (hy : g.block? b = some y)
    (label : String) (kind : BlockKind) : (g.pushBlock label kind).block? b = some y := by
  rw [block?_pushBlock, if_neg, hy]
  rintro rfl
  rw [block?_nextBlock] at hy
  cases hy

/-- A new block lists nothing, and nothing is owned by it. -/
theorem Listed.pushBlock {g : Graph} (h : g.Listed) (label : String) (kind : BlockKind) :
    (g.pushBlock label kind).Listed := by
  have hno : ∀ {v x}, g.value? v = some x → x.block ≠ some g.nextBlock := by
    intro v x hx e
    obtain ⟨y, hy⟩ := h.owner_known hx e
    rw [block?_nextBlock] at hy
    cases hy
  refine ⟨?_, h.value_id, ?_, ?_, ?_, ?_, ?_⟩
  · intro b y hy
    rcases block?_of_pushBlock hy with ⟨rfl, rfl⟩ | hy
    · rfl
    · exact h.block_id hy
  · intro v x b hx hb
    obtain ⟨y, hy⟩ := h.owner_known hx hb
    exact ⟨y, block?_pushBlock_of hy label kind⟩
  · intro b y hy v
    rcases block?_of_pushBlock hy with ⟨rfl, rfl⟩ | hy
    · constructor
      · intro hv
        cases hv
      · rintro ⟨x, hx, hb, _⟩
        exact absurd hb (hno hx)
    · exact h.mem_phis hy v
  · intro b y hy v
    rcases block?_of_pushBlock hy with ⟨rfl, rfl⟩ | hy
    · constructor
      · intro hv
        cases hv
      · rintro ⟨x, hx, hb, _⟩
        exact absurd hb (hno hx)
    · exact h.mem_instrs hy v
  · intro b y hy
    rcases block?_of_pushBlock hy with ⟨rfl, rfl⟩ | hy
    · exact List.nodup_nil
    · exact h.nodup_phis hy
  · intro b y hy
    rcases block?_of_pushBlock hy with ⟨rfl, rfl⟩ | hy
    · exact List.nodup_nil
    · exact h.nodup_instrs hy

/-- A new block has no branches, and nobody branches to it. -/
theorem Linked.pushBlock {g : Graph} (h : g.Linked) (label : String) (kind : BlockKind) :
    (g.pushBlock label kind).Linked := by
  refine ⟨?_, ?_, ?_, ?_⟩
  · obtain ⟨y, hy⟩ := h.entry_known
    exact ⟨y, block?_pushBlock_of hy label kind⟩
  · intro b y hy
    rcases block?_of_pushBlock hy with ⟨rfl, rfl⟩ | hy
    · exact List.nodup_nil
    · exact h.nodup_preds hy
  · intro b y hy p
    rcases block?_of_pushBlock hy with ⟨rfl, rfl⟩ | hy
    · -- nobody branches to a block that does not exist yet
      constructor
      · intro hp
        cases hp
      · rintro ⟨z, hz, br, hbr, ht⟩
        rcases block?_of_pushBlock hz with ⟨rfl, rfl⟩ | hz
        · cases hbr
        · obtain ⟨y, hy⟩ := h.target_known hz hbr
          rw [ht, block?_nextBlock] at hy
          cases hy
    · rw [h.mem_preds hy p]
      constructor
      · rintro ⟨z, hz, hbr⟩
        exact ⟨z, block?_pushBlock_of hz label kind, hbr⟩
      · rintro ⟨z, hz, br, hbr, ht⟩
        rcases block?_of_pushBlock hz with ⟨rfl, rfl⟩ | hz
        · cases hbr
        · exact ⟨z, hz, br, hbr, ht⟩
  · intro p z br hz hbr
    rcases block?_of_pushBlock hz with ⟨rfl, rfl⟩ | hz
    · cases hbr
    · obtain ⟨y, hy⟩ := h.target_known hz hbr
      exact ⟨y, block?_pushBlock_of hy label kind⟩

/-- A new block keeps the graph in order. -/
theorem Orderly.pushBlock {g : Graph} (h : g.Orderly) (label : String) (kind : BlockKind) :
    (g.pushBlock label kind).Orderly := by
  refine ⟨h.toListed.pushBlock label kind, h.toLinked.pushBlock label kind, ?_⟩
  intro v u
  rw [users_pushBlock, h.mem_users]
  cases u with
  | value w => rfl
  | branch b =>
    constructor
    · rintro ⟨y, hy, hbr⟩
      exact ⟨y, block?_pushBlock_of hy label kind, hbr⟩
    · rintro ⟨y, hy, br, hbr, hc⟩
      rcases block?_of_pushBlock hy with ⟨rfl, rfl⟩ | hy
      · cases hbr
      · exact ⟨y, hy, br, hbr, hc⟩

/-- A change of a block's kind or of its seal keeps the graph in order. -/
theorem Orderly.updateBlock {g : Graph} (h : g.Orderly) (b : BlockId) {f : Block → Block}
    (hf : ∀ y, (f y).id = y.id ∧ (f y).phis = y.phis ∧ (f y).instrs = y.instrs ∧
      (f y).preds = y.preds ∧ (f y).branches = y.branches) : (g.updateBlock b f).Orderly := by
  have hF : ∀ c, (g.updateBlock b f).block? c = (g.block? c).map (if b = c then f else id) := by
    intro c
    rw [block?_updateBlock]
    split
    · rfl
    · rw [Option.map_id]
      rfl
  have hG : ∀ v, (g.updateBlock b f).value? v = (g.value? v).map id := by
    intro v
    rw [Option.map_id]
    rfl
  have hFb : ∀ c y, ((if b = c then f else id) y).id = y.id ∧
      ((if b = c then f else id) y).phis = y.phis ∧
      ((if b = c then f else id) y).instrs = y.instrs ∧
      ((if b = c then f else id) y).preds = y.preds ∧
      ((if b = c then f else id) y).branches = y.branches := by
    intro c y
    split
    · exact hf y
    · exact ⟨rfl, rfl, rfl, rfl, rfl⟩
  refine ⟨h.toListed.map hF hG (fun c y _ => ?_) (fun v x _ => ⟨rfl, rfl, rfl⟩),
    h.toLinked.map rfl hF (fun c y _ => ?_), ?_⟩
  · exact ⟨(hFb c y).1, (hFb c y).2.1, (hFb c y).2.2.1⟩
  · exact ⟨(hFb c y).2.2.2.1, by rw [(hFb c y).2.2.2.2]⟩
  · intro v u
    rw [users_updateBlock, h.mem_users]
    cases u with
    | value w => rfl
    | branch c =>
      constructor
      · rintro ⟨y, hy, hbr⟩
        exact ⟨_, by rw [hF, hy]; rfl, by rw [(hFb c y).2.2.2.2]; exact hbr⟩
      · rintro ⟨y', hy', hbr⟩
        rw [hF] at hy'
        obtain ⟨y, hy, rfl⟩ := Option.map_eq_some_iff.1 hy'
        rw [(hFb c y).2.2.2.2] at hbr
        exact ⟨y, hy, hbr⟩

/-- The graph with a branch from `p` to `b`, taken under `cond`. -/
def link (g : Graph) (p : BlockId) (cond : Option Operand) (b : BlockId) : Graph :=
  ((g.updateBlock b (·.addPred p)).updateBlock p fun z =>
    { z with branches := z.branches ++ [⟨cond, b⟩] }).addUses (.branch p) cond.toList

/-- What a branch from `p` to `b` makes of the block `c`. -/
def linkBlock (p : BlockId) (cond : Option Operand) (b c : BlockId) (y : Block) : Block :=
  { (if b = c then y.addPred p else y) with
    branches := if p = c then y.branches ++ [⟨cond, b⟩] else y.branches }

theorem block?_link (g : Graph) (p : BlockId) (cond : Option Operand) (b c : BlockId) :
    (g.link p cond b).block? c = (g.block? c).map (linkBlock p cond b c) := by
  unfold link linkBlock
  rw [block?_addUses, block?_updateBlock, block?_updateBlock]
  have hbr : ∀ y : Block, (y.addPred p).branches = y.branches := by
    intro y
    unfold Block.addPred
    split <;> rfl
  by_cases hp : p = c
  · by_cases hb : b = c
    · subst hp
      subst hb
      simp [Function.comp_def, hbr]
    · simp [hp, hb]
  · by_cases hb : b = c
    · simp only [hp, hb, if_true, if_false]
      congr 1
      funext y
      rw [← hbr y]
    · simp [hp, hb]

@[simp] theorem value?_link (g : Graph) (p : BlockId) (cond : Option Operand) (b : BlockId)
    (v : ValueId) : (g.link p cond b).value? v = g.value? v := by
  unfold link
  rw [value?_addUses]
  rfl

@[simp] theorem entry_link (g : Graph) (p : BlockId) (cond : Option Operand) (b : BlockId) :
    (g.link p cond b).entry = g.entry := by
  unfold link
  rw [entry_addUses]
  rfl

@[simp] theorem forwards_link (g : Graph) (p : BlockId) (cond : Option Operand) (b : BlockId) :
    (g.link p cond b).forwards = g.forwards := by
  unfold link
  rw [forwards_addUses]
  rfl

theorem mem_users_link (g : Graph) (p : BlockId) (cond : Option Operand) (b : BlockId)
    (v : ValueId) (u : User) :
    u ∈ (g.link p cond b).users v ↔
      (u = .branch p ∧ cond = some (.value v)) ∨ u ∈ g.users v := by
  unfold link
  rw [mem_users_addUses, Option.mem_toList]
  rfl

theorem block?_link_of {g : Graph} {p b c : BlockId} {cond : Option Operand} {x : Block}
    (hx : g.block? c = some x) : (g.link p cond b).block? c = some (linkBlock p cond b c x) := by
  rw [block?_link, hx]
  rfl

/-- The branches of a block: the old ones, and the new one at `p`. -/
theorem mem_branches_linkBlock {p b c : BlockId} {cond : Option Operand} {x : Block}
    {br : Branch} : br ∈ (linkBlock p cond b c x).branches ↔
      br ∈ x.branches ∨ (c = p ∧ br = ⟨cond, b⟩) := by
  unfold linkBlock
  by_cases e : p = c
  · subst e
    simp
  · have e' : c ≠ p := fun h => e h.symm
    simp [e, e']

theorem mem_preds_linkBlock {p b c q : BlockId} {cond : Option Operand} {x : Block} :
    q ∈ (linkBlock p cond b c x).preds ↔ (b = c ∧ q = p) ∨ q ∈ x.preds := by
  unfold linkBlock
  by_cases e : b = c
  · simp [e]
  · simp [e]

theorem nodup_preds_linkBlock {p b c : BlockId} {cond : Option Operand} {x : Block}
    (hx : x.preds.Nodup) : (linkBlock p cond b c x).preds.Nodup := by
  unfold linkBlock
  by_cases e : b = c
  · simp only [e, if_true]
    unfold Block.addPred
    split
    · exact hx
    · rename_i hn
      refine List.nodup_append.2 ⟨hx, by simp, ?_⟩
      rintro q hq q' hq' rfl
      exact hn (List.mem_singleton.1 hq' ▸ hq)
  · simp only [e, if_false]
    exact hx

/-- A new branch leaves what blocks list alone. -/
theorem Listed.link {g : Graph} (h : g.Listed) (p : BlockId) (cond : Option Operand)
    (b : BlockId) : (g.link p cond b).Listed := by
  have hG : ∀ v, (g.link p cond b).value? v = (g.value? v).map id := by
    intro v
    rw [Option.map_id, value?_link]
    rfl
  have hadd : ∀ x : Block, (x.addPred p).id = x.id ∧ (x.addPred p).phis = x.phis ∧
      (x.addPred p).instrs = x.instrs := by
    intro x
    unfold Block.addPred
    split <;> exact ⟨rfl, rfl, rfl⟩
  refine h.map (g.block?_link p cond b) hG (fun c x _ => ?_) (fun v x _ => ⟨rfl, rfl, rfl⟩)
  unfold linkBlock
  by_cases e : b = c
  · simp [e, hadd]
  · simp [e]

/-- A new branch between blocks that exist is in both its records. -/
theorem Linked.link {g : Graph} (h : g.Linked) {p b : BlockId} {z y : Block}
    (hp : g.block? p = some z) (hb : g.block? b = some y) (cond : Option Operand) :
    (g.link p cond b).Linked := by
  have hF := g.block?_link p cond b
  refine ⟨?_, ?_, ?_, ?_⟩
  · obtain ⟨x, hx⟩ := h.entry_known
    rw [entry_link]
    exact ⟨_, block?_link_of hx⟩
  · intro c x' hx'
    rw [hF] at hx'
    obtain ⟨x, hx, rfl⟩ := Option.map_eq_some_iff.1 hx'
    exact nodup_preds_linkBlock (h.nodup_preds hx)
  · intro c x' hx' q
    rw [hF] at hx'
    obtain ⟨x, hx, rfl⟩ := Option.map_eq_some_iff.1 hx'
    rw [mem_preds_linkBlock, h.mem_preds hx q]
    constructor
    · rintro (⟨rfl, rfl⟩ | ⟨w, hw, br, hm, ht⟩)
      · exact ⟨_, block?_link_of hp, ⟨cond, b⟩, mem_branches_linkBlock.2 (.inr ⟨rfl, rfl⟩), rfl⟩
      · exact ⟨_, block?_link_of hw, br, mem_branches_linkBlock.2 (.inl hm), ht⟩
    · rintro ⟨w', hw', br, hm, ht⟩
      rw [hF] at hw'
      obtain ⟨w, hw, rfl⟩ := Option.map_eq_some_iff.1 hw'
      rcases mem_branches_linkBlock.1 hm with hm | ⟨rfl, rfl⟩
      · exact .inr ⟨w, hw, br, hm, ht⟩
      · exact .inl ⟨ht, rfl⟩
  · intro q w' br hw' hm
    rw [hF] at hw'
    obtain ⟨w, hw, rfl⟩ := Option.map_eq_some_iff.1 hw'
    rcases mem_branches_linkBlock.1 hm with hm | ⟨rfl, rfl⟩
    · obtain ⟨x, hx⟩ := h.target_known hw hm
      exact ⟨_, block?_link_of hx⟩
    · exact ⟨_, block?_link_of hb⟩

/-- A new branch between blocks that exist keeps the graph in order. -/
theorem Orderly.link {g : Graph} (h : g.Orderly) {p b : BlockId} {z y : Block}
    (hp : g.block? p = some z) (hb : g.block? b = some y) (cond : Option Operand) :
    (g.link p cond b).Orderly := by
  refine ⟨h.toListed.link p cond b, h.toLinked.link hp hb cond, ?_⟩
  intro v u
  rw [mem_users_link, h.mem_users]
  cases u with
  | value w =>
    show (User.value w = .branch p ∧ _ ∨ g.Refers v (.value w)) ↔ _
    simp [Refers]
  | branch c =>
    constructor
    · rintro (⟨e, hc⟩ | ⟨x, hx, br, hm, hc⟩)
      · cases e
        exact ⟨_, block?_link_of hp, ⟨cond, b⟩, mem_branches_linkBlock.2 (.inr ⟨rfl, rfl⟩), hc⟩
      · exact ⟨_, block?_link_of hx, br, mem_branches_linkBlock.2 (.inl hm), hc⟩
    · rintro ⟨x', hx', br, hm, hc⟩
      rw [block?_link] at hx'
      obtain ⟨x, hx, rfl⟩ := Option.map_eq_some_iff.1 hx'
      rcases mem_branches_linkBlock.1 hm with hm | ⟨rfl, rfl⟩
      · exact .inr ⟨x, hx, br, hm, hc⟩
      · exact .inl ⟨rfl, hc⟩

/-! ## 5. New values -/

theorem Listed.ne_nextValue {g : Graph} (h : g.Listed) {b : BlockId} {y : Block} {v : ValueId}
    (hy : g.block? b = some y) (hv : v ∈ y.phis ∨ v ∈ y.instrs) : v ≠ g.nextValue := by
  rintro rfl
  have hx : ∃ x, g.value? g.nextValue = some x := by
    rcases hv with hv | hv
    · obtain ⟨x, hx, _⟩ := (h.mem_phis hy _).1 hv
      exact ⟨x, hx⟩
    · obtain ⟨x, hx, _⟩ := (h.mem_instrs hy _).1 hv
      exact ⟨x, hx⟩
  obtain ⟨x, hx⟩ := hx
  rw [value?_nextValue] at hx
  cases hx

/-- What blocks list stays right when a new value enters the lists of its block. -/
theorem Listed.withValue {g g' : Graph} (h : g.Listed) {b : BlockId} {new : Value}
    {F : BlockId → Block → Block} (hid : new.id = g.nextValue) (hb : new.block = some b)
    (hknown : ∃ y, g.block? b = some y)
    (hG : ∀ v, g'.value? v = if v = g.nextValue then some new else g.value? v)
    (hF : ∀ c, g'.block? c = (g.block? c).map (F c))
    (hFid : ∀ c y, (F c y).id = y.id)
    (hphis : ∀ c y, g.block? c = some y → (F c y).phis.Nodup ∧ ∀ v, v ∈ (F c y).phis ↔
      (c = b ∧ new.isPhi = true ∧ v = g.nextValue) ∨ v ∈ y.phis)
    (hinstrs : ∀ c y, g.block? c = some y → (F c y).instrs.Nodup ∧ ∀ v, v ∈ (F c y).instrs ↔
      (c = b ∧ new.isPhi = false ∧ v = g.nextValue) ∨ v ∈ y.instrs) : g'.Listed := by
  -- a value of the new graph is the new one or an old one
  have hval : ∀ (v : ValueId) (c : BlockId) (k : Bool),
      (∃ x, g'.value? v = some x ∧ x.block = some c ∧ x.isPhi = k) ↔
        (c = b ∧ new.isPhi = k ∧ v = g.nextValue) ∨
          ∃ x, g.value? v = some x ∧ x.block = some c ∧ x.isPhi = k := by
    intro v c k
    rw [hG]
    by_cases e : v = g.nextValue
    · subst e
      rw [if_pos rfl, value?_nextValue]
      constructor
      · rintro ⟨x, hx, hc, hk⟩
        cases hx
        rw [hb] at hc
        exact .inl ⟨(Option.some.inj hc).symm, hk, rfl⟩
      · rintro (⟨rfl, hk, _⟩ | ⟨x, hx, _⟩)
        · exact ⟨new, rfl, hb, hk⟩
        · cases hx
    · rw [if_neg e]
      constructor
      · exact .inr
      · rintro (⟨_, _, e'⟩ | hx)
        · exact absurd e' e
        · exact hx
  refine ⟨?_, ?_, ?_, ?_, ?_, ?_, ?_⟩
  · intro c y' hy'
    rw [hF] at hy'
    obtain ⟨y, hy, rfl⟩ := Option.map_eq_some_iff.1 hy'
    rw [hFid, h.block_id hy]
  · intro v x hx
    rw [hG] at hx
    split at hx
    · rename_i e
      cases hx
      rw [hid, e]
    · exact h.value_id hx
  · intro v x c hx hc
    have hc' : ∃ y, g.block? c = some y := by
      rw [hG] at hx
      split at hx
      · cases hx
        rw [hb] at hc
        cases hc
        exact hknown
      · exact h.owner_known hx hc
    obtain ⟨y, hy⟩ := hc'
    exact ⟨F c y, by rw [hF, hy]; rfl⟩
  · intro c y' hy' v
    rw [hF] at hy'
    obtain ⟨y, hy, rfl⟩ := Option.map_eq_some_iff.1 hy'
    rw [(hphis c y hy).2, h.mem_phis hy, hval]
  · intro c y' hy' v
    rw [hF] at hy'
    obtain ⟨y, hy, rfl⟩ := Option.map_eq_some_iff.1 hy'
    rw [(hinstrs c y hy).2, h.mem_instrs hy, hval]
  · intro c y' hy'
    rw [hF] at hy'
    obtain ⟨y, hy, rfl⟩ := Option.map_eq_some_iff.1 hy'
    exact (hphis c y hy).1
  · intro c y' hy'
    rw [hF] at hy'
    obtain ⟨y, hy, rfl⟩ := Option.map_eq_some_iff.1 hy'
    exact (hinstrs c y hy).1

/-- The users of a graph stay right when a new value is attached and made a user of its
    operands. -/
theorem Orderly.users_withValue {g g' : Graph} (h : g.Orderly) {new : Value}
    {F : BlockId → Block → Block} (hatt : new.isAttached = true)
    (hG : ∀ v, g'.value? v = if v = g.nextValue then some new else g.value? v)
    (hF : ∀ c, g'.block? c = (g.block? c).map (F c))
    (hFb : ∀ c y, (F c y).branches = y.branches)
    (hU : ∀ v u, u ∈ g'.users v ↔
      (u = .value g.nextValue ∧ .value v ∈ new.operands) ∨ u ∈ g.users v) (v : ValueId)
    (u : User) : u ∈ g'.users v ↔ g'.Refers v u := by
  rw [hU, h.mem_users]
  cases u with
  | value w =>
    rw [refers_value, refers_value, hG]
    by_cases e : w = g.nextValue
    · subst e
      rw [if_pos rfl, value?_nextValue]
      constructor
      · rintro (⟨_, hv⟩ | ⟨x, hx, _⟩)
        · exact ⟨new, rfl, hatt, hv⟩
        · cases hx
      · rintro ⟨x, hx, _, hv⟩
        cases hx
        exact .inl ⟨rfl, hv⟩
    · rw [if_neg e]
      constructor
      · rintro (⟨e', _⟩ | hx)
        · cases e'
          exact absurd rfl e
        · exact hx
      · exact .inr
  | branch c =>
    rw [refers_branch, refers_branch, hF]
    constructor
    · rintro (⟨e, _⟩ | ⟨y, hy, hbr⟩)
      · cases e
      · exact ⟨F c y, by rw [hy]; rfl, by rw [hFb]; exact hbr⟩
    · rintro ⟨y', hy', hbr⟩
      obtain ⟨y, hy, rfl⟩ := Option.map_eq_some_iff.1 hy'
      rw [hFb] at hbr
      exact .inr ⟨y, hy, hbr⟩

/-- The graph with a new instruction in `b`, before the one now at `place`. -/
def withInstr (g : Graph) (b : BlockId) (place : Nat) (ty : Ty) (origin : Origin) (i : Instr) :
    Graph :=
  ((g.pushValue ty origin b (.instr i)).updateBlock b fun y =>
    { y with instrs := y.instrs.take place ++ g.nextValue :: y.instrs.drop place }).addUses
      (.value g.nextValue) i.operands

/-- The graph with a new phi of `x` in `b`, without operands. -/
def withPhi (g : Graph) (b : BlockId) (x : VarId) (ty : Ty) : Graph :=
  (g.pushValue ty (.phi x) b (.phi ⟨x, []⟩)).updateBlock b fun y =>
    { y with phis := y.phis ++ [g.nextValue] }

theorem value?_withInstr (g : Graph) (b : BlockId) (place : Nat) (ty : Ty) (origin : Origin)
    (i : Instr) (v : ValueId) :
    (g.withInstr b place ty origin i).value? v =
      if v = g.nextValue then some ⟨g.nextValue, ty, none, origin, some b, .instr i⟩
      else g.value? v := by
  unfold withInstr
  rw [value?_addUses, value?_updateBlock, value?_pushValue]

theorem block?_withInstr (g : Graph) (b : BlockId) (place : Nat) (ty : Ty) (origin : Origin)
    (i : Instr) (c : BlockId) :
    (g.withInstr b place ty origin i).block? c = (g.block? c).map fun y =>
      { y with instrs :=
          if b = c then y.instrs.take place ++ g.nextValue :: y.instrs.drop place
          else y.instrs } := by
  unfold withInstr
  rw [block?_addUses, block?_updateBlock, block?_pushValue]
  by_cases e : b = c
  · simp [e]
  · simp [e]

theorem value?_withPhi (g : Graph) (b : BlockId) (x : VarId) (ty : Ty) (v : ValueId) :
    (g.withPhi b x ty).value? v =
      if v = g.nextValue then some ⟨g.nextValue, ty, none, .phi x, some b, .phi ⟨x, []⟩⟩
      else g.value? v := by
  unfold withPhi
  rw [value?_updateBlock, value?_pushValue]

theorem block?_withPhi (g : Graph) (b : BlockId) (x : VarId) (ty : Ty) (c : BlockId) :
    (g.withPhi b x ty).block? c = (g.block? c).map fun y =>
      { y with phis := if b = c then y.phis ++ [g.nextValue] else y.phis } := by
  unfold withPhi
  rw [block?_updateBlock, block?_pushValue]
  by_cases e : b = c
  · simp [e]
  · simp [e]

/-- An entry that is put into a list, up to the order. -/
theorem perm_insert_at {α : Type} (as : List α) (n : Nat) (a : α) :
    (as.take n ++ a :: as.drop n).Perm (a :: as) := by
  have hp : (as.take n ++ a :: as.drop n).Perm (a :: (as.take n ++ as.drop n)) :=
    List.perm_middle
  rwa [List.take_append_drop] at hp

theorem entry_withInstr (g : Graph) (b : BlockId) (place : Nat) (ty : Ty) (origin : Origin)
    (i : Instr) : (g.withInstr b place ty origin i).entry = g.entry := by
  unfold withInstr
  rw [entry_addUses]
  rfl

/-- A new instruction is listed by its block. -/
theorem Listed.withInstr {g : Graph} (h : g.Listed) {b : BlockId} {y : Block}
    (hb : g.block? b = some y) (place : Nat) (ty : Ty) (origin : Origin) (i : Instr) :
    (g.withInstr b place ty origin i).Listed := by
  refine h.withValue rfl rfl ⟨y, hb⟩ (g.value?_withInstr b place ty origin i)
    (g.block?_withInstr b place ty origin i) (fun _ _ => rfl) ?_ ?_
  · intro c z hz
    have hn := h.nodup_phis hz
    refine ⟨hn, fun v => ?_⟩
    simp [Value.isPhi]
  · intro c z hz
    have hnew : g.nextValue ∉ z.instrs := fun hv => h.ne_nextValue hz (.inr hv) rfl
    by_cases e : b = c
    · subst e
      simp only [if_true]
      have hp := perm_insert_at z.instrs place g.nextValue
      refine ⟨hp.nodup_iff.2 (List.nodup_cons.2 ⟨hnew, h.nodup_instrs hz⟩), fun v => ?_⟩
      rw [hp.mem_iff, List.mem_cons]
      simp [Value.isPhi]
    · simp only [if_neg e]
      refine ⟨h.nodup_instrs hz, fun v => ?_⟩
      have e' : c ≠ b := fun h => e h.symm
      simp [e']

theorem Linked.withInstr {g : Graph} (h : g.Linked) (b : BlockId) (place : Nat) (ty : Ty)
    (origin : Origin) (i : Instr) : (g.withInstr b place ty origin i).Linked :=
  h.map (entry_withInstr ..) (g.block?_withInstr b place ty origin i) fun _ _ _ => ⟨rfl, rfl⟩

theorem Orderly.withInstr {g : Graph} (h : g.Orderly) {b : BlockId} {y : Block}
    (hb : g.block? b = some y) (place : Nat) (ty : Ty) (origin : Origin) (i : Instr) :
    (g.withInstr b place ty origin i).Orderly := by
  refine ⟨h.toListed.withInstr hb place ty origin i, h.toLinked.withInstr b place ty origin i,
    h.users_withValue rfl (g.value?_withInstr b place ty origin i)
      (g.block?_withInstr b place ty origin i) (fun _ _ => rfl) ?_⟩
  intro v u
  unfold Graph.withInstr
  rw [mem_users_addUses]
  rfl

/-- A new phi is listed by its block. -/
theorem Listed.withPhi {g : Graph} (h : g.Listed) {b : BlockId} {y : Block}
    (hb : g.block? b = some y) (x : VarId) (ty : Ty) : (g.withPhi b x ty).Listed := by
  refine h.withValue rfl rfl ⟨y, hb⟩ (g.value?_withPhi b x ty) (g.block?_withPhi b x ty)
    (fun _ _ => rfl) ?_ ?_
  · intro c z hz
    have hnew : g.nextValue ∉ z.phis := fun hv => h.ne_nextValue hz (.inl hv) rfl
    by_cases e : b = c
    · subst e
      simp only [if_true]
      refine ⟨List.nodup_append.2 ⟨h.nodup_phis hz, by simp, ?_⟩, fun v => ?_⟩
      · rintro v hv w hw rfl
        exact hnew (List.mem_singleton.1 hw ▸ hv)
      · simp [Value.isPhi, or_comm]
    · simp only [if_neg e]
      refine ⟨h.nodup_phis hz, fun v => ?_⟩
      have e' : c ≠ b := fun h => e h.symm
      simp [e']
  · intro c z hz
    have hn := h.nodup_instrs hz
    refine ⟨hn, fun v => ?_⟩
    simp [Value.isPhi]

theorem Linked.withPhi {g : Graph} (h : g.Linked) (b : BlockId) (x : VarId) (ty : Ty) :
    (g.withPhi b x ty).Linked :=
  h.map rfl (g.block?_withPhi b x ty) fun _ _ _ => ⟨rfl, rfl⟩

theorem Orderly.withPhi {g : Graph} (h : g.Orderly) {b : BlockId} {y : Block}
    (hb : g.block? b = some y) (x : VarId) (ty : Ty) : (g.withPhi b x ty).Orderly := by
  refine ⟨h.toListed.withPhi hb x ty, h.toLinked.withPhi b x ty,
    h.users_withValue rfl (g.value?_withPhi b x ty) (g.block?_withPhi b x ty) (fun _ _ => rfl) ?_⟩
  intro v u
  constructor
  · exact .inr
  · rintro (⟨_, hv⟩ | hu)
    · cases hv
    · exact hu

/-! ## 6. Changes of values -/

/-- The graph in which the phi `v` has a further operand, for the edge from `p`. -/
def withIncoming (g : Graph) (v : ValueId) (phi : Phi) (o : Operand) (p : BlockId) : Graph :=
  (g.updateValue v fun x =>
    { x with kind := .phi { phi with incoming := phi.incoming ++ [(o, p)] } }).addUses
      (.value v) [o]

theorem value?_withIncoming (g : Graph) (v : ValueId) (phi : Phi) (o : Operand) (p : BlockId)
    (w : ValueId) :
    (g.withIncoming v phi o p).value? w = (g.value? w).map fun x =>
      if v = w then { x with kind := .phi { phi with incoming := phi.incoming ++ [(o, p)] } }
      else x := by
  unfold withIncoming
  rw [value?_addUses, value?_updateValue]
  by_cases e : v = w
  · simp [e]
  · simp [e]

@[simp] theorem block?_withIncoming (g : Graph) (v : ValueId) (phi : Phi) (o : Operand)
    (p b : BlockId) : (g.withIncoming v phi o p).block? b = g.block? b := by
  unfold withIncoming
  rw [block?_addUses]
  rfl

/-- A further operand of a phi, attached or not, leaves what blocks list alone. -/
theorem Listed.withIncoming {g : Graph} (h : g.Listed) {v : ValueId} {x : Value} {phi : Phi}
    (hv : g.value? v = some x) (hk : x.kind = .phi phi) (o : Operand) (p : BlockId) :
    (g.withIncoming v phi o p).Listed := by
  have hF : ∀ b, (g.withIncoming v phi o p).block? b = (g.block? b).map id := by
    intro b
    rw [Option.map_id, block?_withIncoming]
    rfl
  refine h.map hF (g.value?_withIncoming v phi o p) (fun _ _ _ => ⟨rfl, rfl, rfl⟩) ?_
  intro w z hz
  by_cases e : v = w
  · subst e
    rw [hv] at hz
    cases hz
    simp [Value.isPhi, hk]
  · simp [e]

theorem Linked.withIncoming {g : Graph} (h : g.Linked) (v : ValueId) (phi : Phi) (o : Operand)
    (p : BlockId) : (g.withIncoming v phi o p).Linked := by
  have hF : ∀ b, (g.withIncoming v phi o p).block? b = (g.block? b).map id := by
    intro b
    rw [Option.map_id, block?_withIncoming]
    rfl
  refine h.map ?_ hF fun _ _ _ => ⟨rfl, rfl⟩
  unfold Graph.withIncoming
  rw [entry_addUses]
  rfl

/-- A further operand of an attached phi keeps the graph in order. -/
theorem Orderly.withIncoming {g : Graph} (h : g.Orderly) {v : ValueId} {x : Value} {phi : Phi}
    (hv : g.value? v = some x) (hatt : x.isAttached = true) (hk : x.kind = .phi phi)
    (o : Operand) (p : BlockId) : (g.withIncoming v phi o p).Orderly := by
  have hG := g.value?_withIncoming v phi o p
  refine ⟨h.toListed.withIncoming hv hk o p, h.toLinked.withIncoming v phi o p, ?_⟩
  intro w u
  have hU : u ∈ (g.withIncoming v phi o p).users w ↔
      (u = .value v ∧ o = .value w) ∨ u ∈ g.users w := by
    unfold Graph.withIncoming
    rw [mem_users_addUses, List.mem_singleton]
    constructor
    · rintro (⟨e, e'⟩ | hu)
      · exact .inl ⟨e, e'.symm⟩
      · exact .inr hu
    · rintro (⟨e, e'⟩ | hu)
      · exact .inl ⟨e, e'.symm⟩
      · exact .inr hu
  rw [hU, h.mem_users]
  cases u with
  | value t =>
    rw [refers_value, refers_value, hG]
    by_cases e : v = t
    · subst e
      rw [hv]
      have hops : x.operands = phi.incoming.map Prod.fst := by
        unfold Value.operands
        rw [hk]
      simp only [if_true, Option.map_some, Option.some.injEq, true_and, exists_eq_left', hops]
      simp [Value.operands, Value.isAttached] at hatt ⊢
      rw [hatt]
      simp [or_comm, eq_comm]
    · have e' : t ≠ v := fun h => e h.symm
      simp [e, e', Option.map_id']
  | branch c =>
    rw [refers_branch, refers_branch, block?_withIncoming]
    simp

/-- Two graphs that differ at most in the names and origins of their values. -/
structure Alike (g g' : Graph) : Prop where
  value : ∃ G : ValueId → Value → Value, (∀ v, g'.value? v = (g.value? v).map (G v)) ∧
    ∀ v x, (G v x).id = x.id ∧ (G v x).ty = x.ty ∧ (G v x).block = x.block ∧
      (G v x).kind = x.kind
  size : g'.values.size = g.values.size
  blocks : g'.blocks = g.blocks
  entry : g'.entry = g.entry
  uses : g'.uses = g.uses
  forwards : g'.forwards = g.forwards

theorem Alike.refl (g : Graph) : g.Alike g :=
  ⟨⟨fun _ => id, fun _ => (Option.map_id_apply).symm, fun _ _ => ⟨rfl, rfl, rfl, rfl⟩⟩,
    rfl, rfl, rfl, rfl, rfl⟩

theorem Alike.trans {g g' g'' : Graph} (h : g.Alike g') (h' : g'.Alike g'') : g.Alike g'' := by
  obtain ⟨G, hG, hGx⟩ := h.value
  obtain ⟨G', hG', hGx'⟩ := h'.value
  refine ⟨⟨fun v x => G' v (G v x), fun v => ?_, fun v x => ?_⟩, h'.size.trans h.size,
    h'.blocks.trans h.blocks, h'.entry.trans h.entry, h'.uses.trans h.uses,
    h'.forwards.trans h.forwards⟩
  · rw [hG', hG, Option.map_map]
    rfl
  · obtain ⟨a1, a2, a3, a4⟩ := hGx v x
    obtain ⟨b1, b2, b3, b4⟩ := hGx' v (G v x)
    exact ⟨b1.trans a1, b2.trans a2, b3.trans a3, b4.trans a4⟩

theorem Alike.updateValue (g : Graph) (v : ValueId) {f : Value → Value}
    (hf : ∀ x, (f x).id = x.id ∧ (f x).ty = x.ty ∧ (f x).block = x.block ∧ (f x).kind = x.kind) :
    g.Alike (g.updateValue v f) := by
  refine ⟨⟨fun w => if v = w then f else id, fun w => ?_, fun w x => ?_⟩, ?_, rfl, rfl, rfl, rfl⟩
  · rw [value?_updateValue]
    by_cases e : v = w
    · simp [e]
    · simp [e]
  · by_cases e : v = w
    · simp only [e, if_true]
      exact hf x
    · simp only [e, if_false]
      exact ⟨rfl, rfl, rfl, rfl⟩
  · simp [Graph.updateValue]

theorem Alike.block? {g g' : Graph} (h : g.Alike g') (b : BlockId) :
    g'.block? b = g.block? b := by
  unfold Graph.block?
  rw [h.blocks]

theorem Orderly.alike {g g' : Graph} (h : g.Orderly) (ha : g.Alike g') : g'.Orderly := by
  obtain ⟨G, hG, hGx⟩ := ha.value
  have hops : ∀ v x, (G v x).operands = x.operands ∧ (G v x).isPhi = x.isPhi ∧
      (G v x).isAttached = x.isAttached := by
    intro v x
    obtain ⟨-, -, hb, hk⟩ := hGx v x
    unfold Value.operands Value.isPhi Value.isAttached
    rw [hb, hk]
    exact ⟨rfl, rfl, rfl⟩
  have hF : ∀ b, g'.block? b = (g.block? b).map id := by
    intro b
    rw [Option.map_id_apply, ha.block? b]
  refine ⟨h.toListed.map hF hG (fun _ _ _ => ⟨rfl, rfl, rfl⟩)
      (fun v x _ => ⟨(hGx v x).1, (hGx v x).2.2.1, (hops v x).2.1⟩),
    h.toLinked.map ha.entry hF (fun _ _ _ => ⟨rfl, rfl⟩), ?_⟩
  intro v u
  have hU : g'.users v = g.users v := by
    unfold Graph.users
    rw [ha.uses]
  rw [hU, h.mem_users]
  cases u with
  | value w =>
    rw [refers_value, refers_value, hG]
    constructor
    · rintro ⟨x, hx, hatt, hv⟩
      exact ⟨G w x, by rw [hx]; rfl, by rw [(hops w x).2.2]; exact hatt,
        by rw [(hops w x).1]; exact hv⟩
    · rintro ⟨x', hx', hatt, hv⟩
      obtain ⟨x, hx, rfl⟩ := Option.map_eq_some_iff.1 hx'
      rw [(hops w x).2.2] at hatt
      rw [(hops w x).1] at hv
      exact ⟨x, hx, hatt, hv⟩
  | branch b => rw [refers_branch, refers_branch, ha.block?]

end Graph

end BitFlow
