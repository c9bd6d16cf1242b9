import BitFlow.Proofs.Graph.Orderly

/-!
# Replacing a value and taking it out

A value `v` is retired in favour of an operand `o`: everybody who refers to `v` refers to `o`
instead, `v` leaves its block, and from now on it stands for `o`.

Main statements: `Edit.ends_replaceUses` and `Edit.ends_detach` -- the operations succeed on a
graph in order; `Graph.Rerouted.orderly` and `Graph.Orderly.without` -- each leaves one in order;
`Graph.Rerouted.not_refers` -- after the first nobody refers to `v`; `Graph.Rerouted.retired` --
the two together retire a phi.
-/

namespace BitFlow

/-! ## 1. Replacing operands -/

theorem Operand.replace_replace (a b o : Operand) :
    Operand.replace a b (Operand.replace a b o) = Operand.replace a b o := by
  unfold Operand.replace
  by_cases h : o = a
  · by_cases h' : b = a
    · simp [h, h']
    · simp [h, h']
  · simp [h]

theorem Operand.replace_of_ne {a b o : Operand} (h : o ≠ a) : Operand.replace a b o = o :=
  if_neg h

theorem Operand.mem_map_replace {v w : ValueId} {o : Operand} {os : List Operand} :
    Operand.value w ∈ os.map (Operand.replace (.value v) o) ↔
      (w ≠ v ∧ .value w ∈ os) ∨ (o = .value w ∧ .value v ∈ os) := by
  rw [List.mem_map]
  constructor
  · rintro ⟨a, ha, e⟩
    unfold Operand.replace at e
    split at e
    · rename_i h
      exact .inr ⟨e, h ▸ ha⟩
    · rename_i h
      subst e
      exact .inl ⟨fun hw => h (congrArg Operand.value hw), ha⟩
  · rintro (⟨hw, hm⟩ | ⟨rfl, hm⟩)
    · exact ⟨_, hm, Operand.replace_of_ne fun e => hw (Operand.value.inj e)⟩
    · exact ⟨_, hm, if_pos rfl⟩

namespace Value

@[simp] theorem block_replace (a b : Operand) (x : Value) : (x.replace a b).block = x.block := rfl

@[simp] theorem id_replace (a b : Operand) (x : Value) : (x.replace a b).id = x.id := rfl

@[simp] theorem ty_replace (a b : Operand) (x : Value) : (x.replace a b).ty = x.ty := rfl

@[simp] theorem isAttached_replace (a b : Operand) (x : Value) :
    (x.replace a b).isAttached = x.isAttached := rfl

theorem replace_replace (a b : Operand) (x : Value) :
    (x.replace a b).replace a b = x.replace a b := by
  rcases x with ⟨id, ty, name, origin, block, kind⟩
  cases kind with
  | instr i => simp [replace, Function.comp_def, Operand.replace_replace]
  | phi p => simp [replace, Function.comp_def, Operand.replace_replace]

theorem replace_of_not_mem {a b : Operand} {x : Value} (h : a ∉ x.operands) :
    x.replace a b = x := by
  have hmap : ∀ os : List Operand, a ∉ os → os.map (Operand.replace a b) = os := by
    intro os hos
    refine (List.map_congr_left fun o ho => ?_).trans (List.map_id os)
    exact Operand.replace_of_ne fun e => hos (e ▸ ho)
  rcases x with ⟨id, ty, name, origin, block, kind⟩
  cases kind with
  | instr i => simp [replace, hmap i.operands h]
  | phi p =>
    have hp : p.incoming.map (fun s => (Operand.replace a b s.1, s.2)) = p.incoming := by
      refine (List.map_congr_left fun s hs => ?_).trans (List.map_id _)
      rw [Operand.replace_of_ne]
      · rfl
      · exact fun e => h (List.mem_map.2 ⟨s, hs, e⟩)
    simp [replace, hp]

/-- What is left of the phi `v` when it is retired in favour of `o`. -/
def retire (v : ValueId) (o : Operand) (x : Value) : Value :=
  { x with block := none, kind := (x.replace (.value v) o).kind }

end Value

namespace Block

/-- The block with `b` in place of `a` in the conditions of its branches. -/
def replaceConds (a b : Operand) (y : Block) : Block :=
  { y with
    branches := y.branches.map fun br => { br with cond := br.cond.map (Operand.replace a b) } }

theorem replaceConds_replaceConds (a b : Operand) (y : Block) :
    (y.replaceConds a b).replaceConds a b = y.replaceConds a b := by
  simp [replaceConds, Function.comp_def, Operand.replace_replace]

theorem replaceConds_of_not_mem {a b : Operand} {y : Block}
    (h : ∀ br ∈ y.branches, br.cond ≠ some a) : y.replaceConds a b = y := by
  have hbr : y.branches.map (fun br => { br with cond := br.cond.map (Operand.replace a b) }) =
      y.branches := by
    refine (List.map_congr_left fun br hm => ?_).trans (List.map_id _)
    rcases br with ⟨_ | o, t⟩
    · rfl
    · have ho : o ≠ a := fun e => h _ hm (congrArg some e)
      simp [Operand.replace_of_ne ho]
  simp [replaceConds, hbr]

/-- The block without the value `v` in its lists. -/
def without (v : ValueId) (y : Block) : Block :=
  { y with phis := y.phis.filter (· ≠ v), instrs := y.instrs.filter (· ≠ v) }

/-- What is left of a block when the phi `v` is retired in favour of `o`. -/
def retire (v : ValueId) (o : Operand) (y : Block) : Block :=
  { y with phis := y.phis.filter (· ≠ v), branches := (y.replaceConds (.value v) o).branches }

theorem exists_cond_iff (y : Block) (a : Operand) :
    (∃ br ∈ y.branches, br.cond = some a) ↔ a ∈ y.branches.filterMap Branch.cond := by
  rw [List.mem_filterMap]

theorem conds_replaceConds (a b : Operand) (y : Block) :
    (y.replaceConds a b).branches.filterMap Branch.cond =
      (y.branches.filterMap Branch.cond).map (Operand.replace a b) := by
  unfold replaceConds
  rw [List.filterMap_map, List.map_filterMap]
  rfl

theorem exists_cond_replaceConds {v w : ValueId} {o : Operand} {y : Block} :
    (∃ br ∈ (y.replaceConds (.value v) o).branches, br.cond = some (.value w)) ↔
      (w ≠ v ∧ ∃ br ∈ y.branches, br.cond = some (.value w)) ∨
        (o = .value w ∧ ∃ br ∈ y.branches, br.cond = some (.value v)) := by
  rw [exists_cond_iff, exists_cond_iff, exists_cond_iff, conds_replaceConds,
    Operand.mem_map_replace]

end Block

namespace Graph

@[simp] theorem value?_setForward (g : Graph) (v w : ValueId) (o : Operand) :
    (g.setForward v o).value? w = g.value? w := rfl

@[simp] theorem block?_setForward (g : Graph) (v : ValueId) (o : Operand) (b : BlockId) :
    (g.setForward v o).block? b = g.block? b := rfl

/-! ## 2. Everybody refers to the replacement -/

/-- The graph `g'` is `g` with `o` in place of `v` in the users `done`, who have become users of
    `o`. -/
structure Rerouted (v : ValueId) (o : Operand) (done : List User) (g g' : Graph) : Prop where
  value : ∀ w, g'.value? w =
    (g.value? w).map fun x => if User.value w ∈ done then x.replace (.value v) o else x
  block : ∀ b, g'.block? b =
    (g.block? b).map fun y => if User.branch b ∈ done then y.replaceConds (.value v) o else y
  users : ∀ w u, u ∈ g'.users w ↔ (w ≠ v ∧ u ∈ g.users w) ∨ (o = .value w ∧ u ∈ done)
  entry : g'.entry = g.entry
  forwards : g'.forwards = g.forwards
  blocks_size : g'.blocks.size = g.blocks.size
  values_size : g'.values.size = g.values.size

/-- Replacing `v` in one more user. -/
theorem Rerouted.addUses {v : ValueId} {o : Operand} {done : List User} {g g₁ g₂ : Graph}
    (h : Rerouted v o done g g₁) {u : User}
    (hval : ∀ w, g₂.value? w =
      (g₁.value? w).map fun x => if u = .value w then x.replace (.value v) o else x)
    (hblk : ∀ b, g₂.block? b =
      (g₁.block? b).map fun y => if u = .branch b then y.replaceConds (.value v) o else y)
    (hu : ∀ w, g₂.users w = g₁.users w) (he : g₂.entry = g₁.entry)
    (hf : g₂.forwards = g₁.forwards) (hbs : g₂.blocks.size = g₁.blocks.size)
    (hvs : g₂.values.size = g₁.values.size) :
    Rerouted v o (done ++ [u]) g (g₂.addUses u [o]) := by
  refine ⟨fun w => ?_, fun b => ?_, fun w u' => ?_, ?_, ?_, ?_, ?_⟩
  · rw [value?_addUses, hval, h.value, Option.map_map]
    congr 1
    funext x
    by_cases h1 : u = .value w
    · by_cases h2 : User.value w ∈ done
      · simp [h1, h2, Value.replace_replace]
      · simp [h1, h2]
    · have h1' : User.value w ≠ u := fun e => h1 e.symm
      simp [h1, h1']
  · rw [block?_addUses, hblk, h.block, Option.map_map]
    congr 1
    funext y
    by_cases h1 : u = .branch b
    · by_cases h2 : User.branch b ∈ done
      · simp [h1, h2, Block.replaceConds_replaceConds]
      · simp [h1, h2]
    · have h1' : User.branch b ≠ u := fun e => h1 e.symm
      simp [h1, h1']
  · rw [mem_users_addUses, hu, h.users, List.mem_singleton, List.mem_append, List.mem_singleton]
    constructor
    · rintro (⟨rfl, e⟩ | h' | ⟨e, h'⟩)
      · exact .inr ⟨e.symm, .inr rfl⟩
      · exact .inl h'
      · exact .inr ⟨e, .inl h'⟩
    · rintro (h' | ⟨e, h' | rfl⟩)
      · exact .inr (.inl h')
      · exact .inr (.inr ⟨e, h'⟩)
      · exact .inl ⟨rfl, e.symm⟩
  · rw [entry_addUses, he, h.entry]
  · rw [forwards_addUses, hf, h.forwards]
  · rw [addUses_eq]
    exact hbs.trans h.blocks_size
  · rw [addUses_eq]
    exact hvs.trans h.values_size

section Rerouted

variable {v : ValueId} {o : Operand} {g g' : Graph}

/-- An attached value that is no user of `v` does not name it, so replacing changes nothing
    there. -/
theorem Orderly.replace_of_users (hg : g.Orderly) {w : ValueId} {x : Value}
    (hx : g.value? w = some x) (hatt : x.isAttached = true) :
    (if User.value w ∈ g.users v then x.replace (.value v) o else x) = x.replace (.value v) o := by
  split
  · rfl
  · rename_i hn
    refine (Value.replace_of_not_mem fun hm => hn ?_).symm
    exact (hg.mem_users v _).2 ⟨x, hx, hatt, hm⟩

theorem Orderly.replaceConds_of_users (hg : g.Orderly) {b : BlockId} {y : Block}
    (hy : g.block? b = some y) :
    (if User.branch b ∈ g.users v then y.replaceConds (.value v) o else y) =
      y.replaceConds (.value v) o := by
  split
  · rfl
  · rename_i hn
    refine (Block.replaceConds_of_not_mem fun br hm e => hn ?_).symm
    exact (hg.mem_users v _).2 ⟨y, hy, br, hm, e⟩

/-- A removed value is no user. -/
theorem Orderly.not_mem_users (hg : g.Orderly) {w : ValueId} {x : Value}
    (hx : g.value? w = some x) (hatt : x.isAttached = false) : User.value w ∉ g.users v := by
  intro hu
  obtain ⟨x', hx', hatt', _⟩ := (hg.mem_users v _).1 hu
  rw [hx] at hx'
  cases hx'
  rw [hatt] at hatt'
  cases hatt'

/-- Who refers to `w` once everybody who referred to `v` refers to `o`. -/
theorem Rerouted.refers_iff (hg : g.Orderly) (h : Rerouted v o (g.users v) g g') (w : ValueId)
    (u : User) :
    g'.Refers w u ↔ (w ≠ v ∧ g.Refers w u) ∨ (o = .value w ∧ g.Refers v u) := by
  cases u with
  | value t =>
    rw [refers_value, refers_value, refers_value, h.value]
    constructor
    · rintro ⟨x', hx', hatt, hm⟩
      obtain ⟨x, hx, rfl⟩ := Option.map_eq_some_iff.1 hx'
      have hatt₀ : x.isAttached = true := by
        split at hatt <;> exact hatt
      rw [hg.replace_of_users hx hatt₀, Value.operands_replace, Operand.mem_map_replace] at hm
      exact hm.imp (fun hm => ⟨hm.1, x, hx, hatt₀, hm.2⟩) fun hm => ⟨hm.1, x, hx, hatt₀, hm.2⟩
    · intro hm
      obtain ⟨x, hx, hatt, hm⟩ : ∃ x, g.value? t = some x ∧ x.isAttached = true ∧
          Operand.value w ∈ x.operands.map (Operand.replace (.value v) o) := by
        rcases hm with ⟨hw, x, hx, hatt, hm⟩ | ⟨hw, x, hx, hatt, hm⟩
        · exact ⟨x, hx, hatt, Operand.mem_map_replace.2 (.inl ⟨hw, hm⟩)⟩
        · exact ⟨x, hx, hatt, Operand.mem_map_replace.2 (.inr ⟨hw, hm⟩)⟩
      refine ⟨x.replace (.value v) o, ?_, hatt, by rwa [Value.operands_replace]⟩
      rw [hx, Option.map_some, hg.replace_of_users hx hatt]
  | branch b =>
    rw [refers_branch, refers_branch, refers_branch, h.block]
    constructor
    · rintro ⟨y', hy', hbr⟩
      obtain ⟨y, hy, rfl⟩ := Option.map_eq_some_iff.1 hy'
      rw [hg.replaceConds_of_users hy, Block.exists_cond_replaceConds] at hbr
      exact hbr.imp (fun hc => ⟨hc.1, y, hy, hc.2⟩) fun hc => ⟨hc.1, y, hy, hc.2⟩
    · intro hc
      obtain ⟨y, hy, hbr⟩ : ∃ y, g.block? b = some y ∧
          ∃ br ∈ (y.replaceConds (.value v) o).branches, br.cond = some (.value w) := by
        rcases hc with ⟨hw, y, hy, hc⟩ | ⟨hw, y, hy, hc⟩
        · exact ⟨y, hy, Block.exists_cond_replaceConds.2 (.inl ⟨hw, hc⟩)⟩
        · exact ⟨y, hy, Block.exists_cond_replaceConds.2 (.inr ⟨hw, hc⟩)⟩
      exact ⟨y.replaceConds (.value v) o, by
        rw [hy, Option.map_some, hg.replaceConds_of_users hy], hbr⟩

/-- Once everybody who referred to `v` refers to `o` the graph is in order again. -/
theorem Rerouted.orderly (hg : g.Orderly) (h : Rerouted v o (g.users v) g g') : g'.Orderly := by
  refine ⟨hg.toListed.map h.block h.value ?_ ?_, hg.toLinked.map h.entry h.block ?_, ?_⟩
  · intro b y _
    split <;> exact ⟨rfl, rfl, rfl⟩
  · intro w x _
    split
    · exact ⟨rfl, rfl, Value.isPhi_replace _ _ x⟩
    · exact ⟨rfl, rfl, rfl⟩
  · intro b y _
    split
    · exact ⟨rfl, by simp [Block.replaceConds, Function.comp_def]⟩
    · exact ⟨rfl, rfl⟩
  · intro w u
    rw [h.users, h.refers_iff hg, hg.mem_users, hg.mem_users]

/-- Unless `v` replaces itself nobody refers to it any more. -/
theorem Rerouted.not_refers (hg : g.Orderly) (h : Rerouted v o (g.users v) g g')
    (ho : o ≠ .value v) (u : User) : ¬ g'.Refers v u := by
  rw [h.refers_iff hg]
  rintro (⟨hv, _⟩ | ⟨hv, _⟩)
  · exact hv rfl
  · exact ho hv

end Rerouted

/-! ## 3. A value without a block -/

/-- The graph with the value `v`, which is `x`, taken out of the block `b` and out of the users of
    its operands. -/
def without (g : Graph) (v : ValueId) (x : Value) (b : BlockId) : Graph :=
  ((g.updateBlock b fun y =>
    if x.isPhi then { y with phis := y.phis.filter (· ≠ v) }
    else { y with instrs := y.instrs.filter (· ≠ v) }).removeUses
      (.value v) x.operands).updateValue v fun z => { z with block := none }

section Without

variable {g : Graph} {v : ValueId} {x : Value} {b : BlockId}

theorem value?_without (g : Graph) (v : ValueId) (x : Value) (b : BlockId) (w : ValueId) :
    (g.without v x b).value? w =
      (g.value? w).map fun z => if w = v then { z with block := none } else z := by
  unfold without
  rw [value?_updateValue, value?_removeUses, value?_updateBlock]
  by_cases e : v = w
  · simp [e]
  · have e' : w ≠ v := fun h => e h.symm
    simp [e, e']

theorem entry_without (g : Graph) (v : ValueId) (x : Value) (b : BlockId) :
    (g.without v x b).entry = g.entry := by
  unfold without
  rw [removeUses_eq]
  rfl

theorem forwards_without (g : Graph) (v : ValueId) (x : Value) (b : BlockId) :
    (g.without v x b).forwards = g.forwards := by
  unfold without
  rw [removeUses_eq]
  rfl

theorem blocks_size_without (g : Graph) (v : ValueId) (x : Value) (b : BlockId) :
    (g.without v x b).blocks.size = g.blocks.size := by
  unfold without
  rw [removeUses_eq]
  simp [Graph.updateValue, Graph.updateBlock]

theorem values_size_without (g : Graph) (v : ValueId) (x : Value) (b : BlockId) :
    (g.without v x b).values.size = g.values.size := by
  unfold without
  rw [removeUses_eq]
  simp [Graph.updateValue, Graph.updateBlock]

theorem mem_users_without (g : Graph) (v : ValueId) (x : Value) (b : BlockId) (w : ValueId)
    (u : User) :
    u ∈ (g.without v x b).users w ↔
      u ∈ g.users w ∧ ¬ (u = .value v ∧ .value w ∈ x.operands) := by
  unfold without
  rw [users_updateValue, mem_users_removeUses, users_updateBlock]

theorem filter_ne_eq_self {vs : List ValueId} (hv : v ∉ vs) : vs.filter (· ≠ v) = vs := by
  rw [List.filter_eq_self]
  intro w hw
  have hne : w ≠ v := fun e => hv (e ▸ hw)
  simpa using hne

/-- The lists of the owner are the only ones with `v`, so the change is the same everywhere. -/
theorem block?_without (hg : g.Listed) (hx : g.value? v = some x) (hb : x.block = some b)
    (c : BlockId) : (g.without v x b).block? c = (g.block? c).map (Block.without v) := by
  unfold without
  rw [block?_updateValue, block?_removeUses, block?_updateBlock]
  cases hy : g.block? c with
  | none => simp
  | some y =>
    have hphis : v ∈ y.phis → b = c ∧ x.isPhi = true := by
      intro hv
      obtain ⟨x', hx', hb', hk⟩ := (hg.mem_phis hy v).1 hv
      rw [hx] at hx'
      cases hx'
      rw [hb] at hb'
      exact ⟨Option.some.inj hb', hk⟩
    have hinstrs : v ∈ y.instrs → b = c ∧ x.isPhi = false := by
      intro hv
      obtain ⟨x', hx', hb', hk⟩ := (hg.mem_instrs hy v).1 hv
      rw [hx] at hx'
      cases hx'
      rw [hb] at hb'
      exact ⟨Option.some.inj hb', hk⟩
    rw [Option.map_some, Option.map_some]
    unfold Block.without
    by_cases e : b = c
    · rw [if_pos e]
      cases hk : x.isPhi with
      | true =>
        have hv : v ∉ y.instrs := fun hv => by simp [(hinstrs hv).2] at hk
        rw [filter_ne_eq_self hv, if_pos rfl]
      | false =>
        have hv : v ∉ y.phis := fun hv => by simp [(hphis hv).2] at hk
        rw [filter_ne_eq_self hv]
        rfl
    · rw [if_neg e, filter_ne_eq_self fun hv => e (hphis hv).1,
        filter_ne_eq_self fun hv => e (hinstrs hv).1]

theorem value?_without_self (hx : g.value? v = some x) (b : BlockId) :
    (g.without v x b).value? v = some { x with block := none } := by
  rw [value?_without, hx, Option.map_some, if_pos rfl]

theorem value?_without_of_ne (g : Graph) (x : Value) (b : BlockId) {w : ValueId} (hw : w ≠ v) :
    (g.without v x b).value? w = g.value? w := by
  rw [value?_without]
  simp [hw]

/-- A value that is taken out leaves the lists of its block. -/
theorem Listed.without (hg : g.Listed) (hx : g.value? v = some x) (hb : x.block = some b) :
    (g.without v x b).Listed := by
  have hF := block?_without hg hx hb
  -- the owned values are those of before without `v`
  have hown : ∀ (w : ValueId) (c : BlockId) (k : Bool),
      (∃ z, (g.without v x b).value? w = some z ∧ z.block = some c ∧ z.isPhi = k) ↔
        (∃ z, g.value? w = some z ∧ z.block = some c ∧ z.isPhi = k) ∧ w ≠ v := by
    intro w c k
    by_cases e : w = v
    · subst e
      rw [value?_without_self hx]
      simp
    · rw [value?_without_of_ne g x b e]
      simp [e]
  refine ⟨?_, ?_, ?_, ?_, ?_, ?_, ?_⟩
  · intro c y' hy'
    rw [hF] at hy'
    obtain ⟨y, hy, rfl⟩ := Option.map_eq_some_iff.1 hy'
    show y.id = c
    exact hg.block_id hy
  · intro w z hz
    rw [value?_without] at hz
    obtain ⟨z₀, hz₀, rfl⟩ := Option.map_eq_some_iff.1 hz
    have hid := hg.value_id hz₀
    split <;> exact hid
  · intro w z c hz hc
    obtain ⟨⟨z₀, hz₀, hc₀, _⟩, _⟩ := (hown w c z.isPhi).1 ⟨z, hz, hc, rfl⟩
    obtain ⟨y, hy⟩ := hg.owner_known hz₀ hc₀
    exact ⟨_, by rw [hF, hy]; rfl⟩
  · intro c y' hy' w
    rw [hF] at hy'
    obtain ⟨y, hy, rfl⟩ := Option.map_eq_some_iff.1 hy'
    rw [hown, ← hg.mem_phis hy]
    simp [Block.without]
  · intro c y' hy' w
    rw [hF] at hy'
    obtain ⟨y, hy, rfl⟩ := Option.map_eq_some_iff.1 hy'
    rw [hown, ← hg.mem_instrs hy]
    simp [Block.without]
  · intro c y' hy'
    rw [hF] at hy'
    obtain ⟨y, hy, rfl⟩ := Option.map_eq_some_iff.1 hy'
    exact (hg.nodup_phis hy).filter _
  · intro c y' hy'
    rw [hF] at hy'
    obtain ⟨y, hy, rfl⟩ := Option.map_eq_some_iff.1 hy'
    exact (hg.nodup_instrs hy).filter _

theorem Linked.without (h : g.Linked) (hg : g.Listed) (hx : g.value? v = some x)
    (hb : x.block = some b) : (g.without v x b).Linked :=
  h.map (entry_without ..) (block?_without hg hx hb) fun _ _ _ => ⟨rfl, rfl⟩

/-- **Taking a value out keeps the graph in order.** -/
theorem Orderly.without (hg : g.Orderly) (hx : g.value? v = some x) (hb : x.block = some b) :
    (g.without v x b).Orderly := by
  refine ⟨hg.toListed.without hx hb, hg.toLinked.without hg.toListed hx hb, ?_⟩
  intro w u
  rw [mem_users_without, hg.mem_users]
  cases u with
  | value t =>
    rw [refers_value, refers_value]
    by_cases e : t = v
    · subst e
      rw [value?_without_self hx, hx]
      constructor
      · rintro ⟨⟨z, hz, _, hm⟩, hn⟩
        cases hz
        exact absurd ⟨rfl, hm⟩ hn
      · rintro ⟨z, hz, hatt, _⟩
        cases hz
        cases hatt
    · rw [value?_without_of_ne g x b e]
      exact and_iff_left fun hu => e (User.value.inj hu.1)
  | branch c =>
    rw [refers_branch, refers_branch, block?_without hg.toListed hx hb]
    constructor
    · rintro ⟨⟨y, hy, hbr⟩, _⟩
      exact ⟨y.without v, by rw [hy]; rfl, hbr⟩
    · rintro ⟨y', hy', hbr⟩
      obtain ⟨y, hy, rfl⟩ := Option.map_eq_some_iff.1 hy'
      exact ⟨⟨y, hy, hbr⟩, fun hu => by cases hu.1⟩

end Without

theorem Orderly.setForward {g : Graph} (h : g.Orderly) (v : ValueId) (o : Operand) :
    (g.setForward v o).Orderly := by
  refine ⟨⟨h.block_id, h.value_id, h.owner_known, h.mem_phis, h.mem_instrs, h.nodup_phis,
    h.nodup_instrs⟩, ⟨h.entry_known, h.nodup_preds, h.mem_preds, h.target_known⟩, ?_⟩
  intro w u
  show u ∈ g.users w ↔ _
  rw [h.mem_users]
  cases u <;> rfl

end Graph

namespace Edit

open BitFlow.Graph

variable {g : Graph} {R : Fault → Prop}

theorem ends_block {Q : Block → Graph → Prop} {b : BlockId} {y : Block}
    (h : g.block? b = some y) : Ends (block b) g R Q ↔ Q y g := by
  unfold Ends
  rw [run_block, h]

theorem ends_value {Q : Value → Graph → Prop} {v : ValueId} {x : Value}
    (h : g.value? v = some x) : Ends (value v) g R Q ↔ Q x g := by
  unfold Ends
  rw [run_value, h]

theorem ends_updateBlock {Q : Unit → Graph → Prop} {b : BlockId} {y : Block}
    (h : g.block? b = some y) (f : Block → Block) :
    Ends (updateBlock b f) g R Q ↔ Q () (g.updateBlock b f) := by
  unfold updateBlock
  rw [Ends.bind_iff, ends_block h, Ends.modify_iff]

theorem ends_updateValue {Q : Unit → Graph → Prop} {v : ValueId} {x : Value}
    (h : g.value? v = some x) (f : Value → Value) :
    Ends (updateValue v f) g R Q ↔ Q () (g.updateValue v f) := by
  unfold updateValue
  rw [Ends.bind_iff, ends_value h, Ends.modify_iff]

/-- One user of `v` is made a user of `o`. -/
theorem ends_replaceUse {v : ValueId} {o : Operand} {done : List User} {g₁ : Graph} {u : User}
    (h : Rerouted v o done g g₁) (hu : g.KnowsUser u) :
    Ends (replaceUse v o u) g₁ R fun _ g₂ => Rerouted v o (done ++ [u]) g g₂ := by
  cases u with
  | value w =>
    obtain ⟨x, hx⟩ := hu
    have hx₁ := h.value w
    rw [hx] at hx₁
    unfold replaceUse
    rw [Ends.bind_iff, ends_updateValue hx₁, Ends.modify_iff]
    refine h.addUses (fun w' => ?_) (fun b => ?_) (fun _ => rfl) rfl rfl rfl ?_
    · rw [value?_updateValue]
      by_cases e : w = w'
      · simp [e]
      · simp [e]
    · simp
    · simp [Graph.updateValue]
  | branch b =>
    obtain ⟨y, hy⟩ := hu
    have hy₁ := h.block b
    rw [hy] at hy₁
    unfold replaceUse
    rw [Ends.bind_iff, ends_updateBlock hy₁, Ends.modify_iff]
    refine h.addUses (fun w => ?_) (fun c => ?_) (fun _ => rfl) rfl rfl ?_ rfl
    · simp
    · rw [block?_updateBlock]
      by_cases e : b = c
      · simp [e, Block.replaceConds]
      · simp [e]
    · simp [Graph.updateBlock]

/-- **Everybody who referred to `v` refers to `o`.** -/
theorem ends_replaceUses {v : ValueId} (hg : ∀ u ∈ g.users v, g.KnowsUser u) (o : Operand) :
    Ends (replaceUses v o) g R fun former g' =>
      former = g.users v ∧ Rerouted v o former g g' := by
  unfold replaceUses
  rw [Ends.bind_iff, Ends.get_iff, Ends.bind_iff, Ends.modify_iff, Ends.bind_iff]
  have h0 : Rerouted v o [] g { g with uses := g.uses.drop v } := by
    refine ⟨fun w => ?_, fun b => ?_, fun w u => ?_, rfl, rfl, rfl, rfl⟩
    · simp [Graph.value?]
    · simp [Graph.block?]
    · have := Multimap.mem_image_drop g.uses v w u
      rw [show (u ∈ Graph.users { g with uses := g.uses.drop v } w) =
        (u ∈ (g.uses.drop v).image w) from rfl, this]
      constructor
      · rintro ⟨h, hn⟩
        exact .inl ⟨fun e => hn e.symm, h⟩
      · rintro (⟨hn, h⟩ | ⟨_, h⟩)
        · exact ⟨h, fun e => hn e.symm⟩
        · cases h
  refine (Ends.forM (fun done g₁ => Rerouted v o done g g₁) _ h0 ?_).mono ?_
  · intro done u rest g₁ hlist h
    have hu : u ∈ g.users v := hlist ▸ List.mem_append_right done List.mem_cons_self
    exact ends_replaceUse h (hg u hu)
  · intro _ g' h
    exact ⟨rfl, h⟩

/-- A value leaves its block, and the users of its operands. -/
theorem ends_detach {Q : Unit → Graph → Prop} {v : ValueId} {x : Value} {b : BlockId} {y : Block}
    (hx : g.value? v = some x) (hb : x.block = some b) (hy : g.block? b = some y) :
    Ends (detach v) g R Q ↔ Q () (g.without v x b) := by
  unfold detach
  rw [Ends.bind_iff, ends_value hx, hb]
  show Ends (updateBlock b _ >>= _) g R Q ↔ _
  rw [Ends.bind_iff, ends_updateBlock hy, Ends.bind_iff, Ends.modify_iff, Ends.modify_iff]
  rfl

end Edit

namespace Graph

/-! ## 4. The retired value is gone -/

/-- The graph `g'` is `g` with the phi `v` retired in favour of `o`. -/
structure Retired (v : ValueId) (o : Operand) (g g' : Graph) : Prop where
  value : ∀ w, g'.value? w = (g.value? w).map fun x =>
    if w = v then x.retire v o
    else if x.isAttached then x.replace (.value v) o else x
  block : ∀ b, g'.block? b = (g.block? b).map (Block.retire v o)
  entry : g'.entry = g.entry
  forwards : g'.forwards = g.forwards.insert v o
  blocks_size : g'.blocks.size = g.blocks.size
  values_size : g'.values.size = g.values.size
  orderly : g'.Orderly

/-- Taking `v` out after everybody refers to `o` retires it. -/
theorem Rerouted.retired {v : ValueId} {o : Operand} {g g₁ : Graph} (hg : g.Orderly)
    (h : Rerouted v o (g.users v) g g₁) {x : Value} {b : BlockId} (hx : g.value? v = some x)
    (hb : x.block = some b) (hphi : x.isPhi = true) :
    Retired v o g ((g₁.without v (x.replace (.value v) o) b).setForward v o) := by
  have hxatt : x.isAttached = true := by
    unfold Value.isAttached
    rw [hb]
    rfl
  have hx₁ : g₁.value? v = some (x.replace (.value v) o) := by
    rw [h.value, hx, Option.map_some, hg.replace_of_users hx hxatt]
  -- `v` is a phi, so no block lists it as an instruction
  have hinstrs : ∀ c y, g.block? c = some y → v ∉ y.instrs := by
    intro c y hy hv
    obtain ⟨x', hx', _, hk⟩ := (hg.mem_instrs hy v).1 hv
    rw [hx] at hx'
    cases hx'
    rw [hphi] at hk
    cases hk
  refine ⟨fun w => ?_, fun c => ?_, ?_, ?_, ?_, ?_, ?_⟩
  · rw [value?_setForward, value?_without, h.value]
    by_cases e : w = v
    · subst e
      rw [hx, Option.map_some, Option.map_some, Option.map_some, hg.replace_of_users hx hxatt]
      simp [Value.retire, Value.replace]
    · simp only [if_neg e]
      cases hw : g.value? w with
      | none => rfl
      | some y =>
        cases hatt : y.isAttached with
        | true => simp [hg.replace_of_users hw hatt, hatt]
        | false => simp [hg.not_mem_users hw hatt, hatt]
  · rw [block?_setForward, block?_without (h.orderly hg).toListed hx₁ hb, h.block]
    cases hc : g.block? c with
    | none => rfl
    | some y =>
      rw [Option.map_some, Option.map_some, Option.map_some, hg.replaceConds_of_users hc]
      unfold Block.without Block.retire Block.replaceConds
      rw [filter_ne_eq_self (hinstrs c y hc)]
  · exact (entry_without ..).trans h.entry
  · show (Graph.without _ _ _ _).forwards.insert v o = _
    rw [forwards_without, h.forwards]
  · exact (blocks_size_without ..).trans h.blocks_size
  · exact (values_size_without ..).trans h.values_size
  · exact ((h.orderly hg).without hx₁ hb).setForward v o

end Graph

end BitFlow
