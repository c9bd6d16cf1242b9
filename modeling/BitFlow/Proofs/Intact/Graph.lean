import BitFlow.Proofs.Typing.Basic

/-!
# Intact graphs

A graph is intact if all that its own operations look up is there: the block of a value, the
predecessors of a block, the users of a value, and for every removed value and every phi operands of
its type. This is less than what a lowering keeps. Instructions and conditions may name values that
do not exist, and nothing is said of where a value is used; so every operation keeps an intact graph
intact, whatever operands it is given.

Main statements: `Graph.Intact.withInstr`, `Graph.Intact.withIncoming`, `Graph.Intact.retired` and
their companions -- one for each operation.
-/

namespace BitFlow

namespace Graph

variable {g g' : Graph} {v : ValueId} {x : Value} {b : BlockId} {ty : Ty}
  {o : Operand}

/-! ## 1. What stays -/

/-- A value leaves one of the two lists of its block, and no other block changes. -/
theorem block?_without_map (g : Graph) (v : ValueId) (x : Value) (b c : BlockId) :
    (g.without v x b).block? c = (g.block? c).map fun y =>
      if b = c then if x.isPhi then { y with phis := y.phis.filter (· ≠ v) }
        else { y with instrs := y.instrs.filter (· ≠ v) } else y := by
  unfold Graph.without
  rw [block?_updateValue, block?_removeUses, block?_updateBlock]
  split
  · rfl
  · exact (Option.map_id_apply).symm

/-- Values keep their types, and no block is lost. -/
structure Evolves (g g' : Graph) : Prop where
  types : g.KeepsTypes g'
  blocks : ∀ {b y}, g.block? b = some y → ∃ y', g'.block? b = some y'

namespace Evolves

theorem value (h : g.Evolves g') (hx : g.value? v = some x) : ∃ x', g'.value? v = some x' := by
  obtain ⟨x', hx', -⟩ := Option.map_eq_some_iff.1 (h.types (.value v) x.ty (typeOf?_value hx))
  exact ⟨x', hx'⟩

theorem knowsUser (h : g.Evolves g') {u : User} (hu : g.KnowsUser u) : g'.KnowsUser u := by
  cases u with
  | value w =>
    obtain ⟨x, hx⟩ := hu
    exact h.value hx
  | branch b =>
    obtain ⟨y, hy⟩ := hu
    exact h.blocks hy

/-- Values and blocks change in place. -/
theorem of_map {F : BlockId → Block → Block} {G : ValueId → Value → Value}
    (hF : ∀ b, g'.block? b = (g.block? b).map (F b))
    (hG : ∀ v, g'.value? v = (g.value? v).map (G v))
    (hkeep : ∀ {v x}, g.value? v = some x → (G v x).ty = x.ty) : g.Evolves g' where
  types := fun o ty ho => by
    cases o with
    | lit c => exact ho
    | undef t => exact ho
    | value v =>
      obtain ⟨x, hx, rfl⟩ := Option.map_eq_some_iff.1 ho
      rw [typeOf?_value (x := G v x) (by rw [hG, hx]; rfl), hkeep hx]
  blocks := fun {b y} hy => ⟨F b y, by rw [hF, hy]; rfl⟩

/-- Names and origins play no part. -/
theorem of_alike (h : g.Alike g') : g.Evolves g' := by
  obtain ⟨G, hG, hsame⟩ := h.value
  refine of_map (F := fun _ => id) (fun b => ?_) hG fun {v x} _ => (hsame v x).2.1
  unfold block?
  rw [h.blocks, Option.map_id]
  rfl

/-- One value more. -/
theorem of_push {new : Value}
    (hv : ∀ v, g'.value? v = if v = g.nextValue then some new else g.value? v)
    (hb : ∀ {b y}, g.block? b = some y → ∃ y', g'.block? b = some y') : g.Evolves g' := by
  have hold : ∀ {v x}, g.value? v = some x → g'.value? v = some x := by
    intro v x hx
    rw [hv, if_neg, hx]
    rintro rfl
    rw [value?_nextValue] at hx
    cases hx
  refine ⟨fun o ty ho => ?_, hb⟩
  cases o with
  | lit c => exact ho
  | undef t => exact ho
  | value v =>
    obtain ⟨x, hx, rfl⟩ := Option.map_eq_some_iff.1 ho
    exact typeOf?_value (hold hx)

theorem updateBlock (g : Graph) (b : BlockId) (f : Block → Block) : g.Evolves (g.updateBlock b f) :=
  of_map (F := fun c => if b = c then f else id) (G := fun _ => id)
    (fun c => by
      rw [block?_updateBlock]
      split
      · rfl
      · exact (Option.map_id_apply).symm)
    (fun _ => (Option.map_id_apply).symm) fun _ => rfl

theorem link (g : Graph) (p : BlockId) (cond : Option Operand) (b : BlockId) :
    g.Evolves (g.link p cond b) :=
  of_map (G := fun _ => id) (block?_link g p cond b)
    (fun v => (value?_link g p cond b v).trans (Option.map_id_apply).symm) fun _ => rfl

theorem withIncoming (g : Graph) (v : ValueId) (p : Phi) (o : Operand) (q : BlockId) :
    g.Evolves (g.withIncoming v p o q) := by
  refine of_map (F := fun _ => id) (fun c => ?_) (value?_withIncoming g v p o q) fun {w z} _ => ?_
  · rw [block?_withIncoming, Option.map_id]
    rfl
  · split
    · rfl
    · rfl

theorem rerouted {done : List User} (hr : Rerouted v o done g g') : g.Evolves g' :=
  of_map hr.block hr.value fun _ => by
    split
    · rfl
    · rfl

theorem without (g : Graph) (v : ValueId) (x : Value) (b : BlockId) :
    g.Evolves (g.without v x b) := by
  refine of_map (block?_without_map g v x b) (value?_without g v x b) fun _ => ?_
  split
  · rfl
  · rfl

theorem setForward (g : Graph) (v : ValueId) (o : Operand) : g.Evolves (g.setForward v o) :=
  ⟨fun _ _ ho => ho, fun hy => ⟨_, hy⟩⟩

theorem pushBlock (g : Graph) (label : String) (kind : BlockKind) :
    g.Evolves (g.pushBlock label kind) :=
  ⟨fun _ _ ho => ho, fun hy => ⟨_, block?_pushBlock_of hy label kind⟩⟩

theorem withPhi (g : Graph) (b : BlockId) (x : VarId) (ty : Ty) : g.Evolves (g.withPhi b x ty) :=
  of_push (value?_withPhi g b x ty) fun {c y} hy => ⟨_, by rw [block?_withPhi, hy]; rfl⟩

theorem withInstr (g : Graph) (b : BlockId) (place : Nat) (ty : Ty) (origin : Origin) (i : Instr) :
    g.Evolves (g.withInstr b place ty origin i) :=
  of_push (value?_withInstr g b place ty origin i) fun {c y} hy =>
    ⟨_, by rw [block?_withInstr, hy]; rfl⟩

end Evolves

/-! ## 2. Intact graphs -/

/-- The value `x` is as an intact graph has it: its block is there, and if it is a phi, its operands
    are of its type. -/
structure Proper (g : Graph) (x : Value) : Prop where
  owner : ∀ {b}, x.block = some b → ∃ y, g.block? b = some y
  phi : x.isPhi = true → ∀ o ∈ x.operands, g.typeOf? o = some x.ty

theorem Proper.mono (h : g.Proper x) (he : g.Evolves g') : g'.Proper x where
  owner := fun hb => (h.owner hb).elim fun _ hy => he.blocks hy
  phi := fun hphi o ho => he.types o x.ty (h.phi hphi o ho)

/-- **An intact graph**: what its operations look up is there. -/
structure Intact (g : Graph) : Prop where
  values : ∀ {v x}, g.value? v = some x → g.Proper x
  preds : ∀ {b y q}, g.block? b = some y → q ∈ y.preds → ∃ z, g.block? q = some z
  users : ∀ {v u}, u ∈ g.users v → g.KnowsUser u
  forwards : ∀ {v o}, g.forwards.get? v = some o →
    ∃ ty, g.typeOf? (.value v) = some ty ∧ g.typeOf? o = some ty

theorem Intact.fresh (name : String) : (Graph.fresh name).Intact where
  values := fun hx => by cases hx
  preds := fun {b y q} hy hq => by
    have hmem : y ∈ (Graph.fresh name).blocks := Array.mem_of_getElem? hy
    rw [show (Graph.fresh name).blocks = #[Block.fresh ⟨0⟩ "entry" .live] from rfl] at hmem
    rw [Array.mem_singleton.1 hmem] at hq
    cases hq
  users := fun hu => by cases hu
  forwards := fun h => by cases h

namespace Intact

variable (h : g.Intact)

include h

/-- What an operand stands for is of its type. -/
theorem typeOf?_resolve (ho : g.typeOf? o = some ty) : g.typeOf? (g.resolve o) = some ty := by
  refine of_resolve (G := fun a => g.typeOf? a = some ty) (fun {w next} hw hnext => ?_) ho
  obtain ⟨ty', hty', hnext'⟩ := h.forwards hnext
  exact hnext'.trans (hty'.symm.trans hw)

/-! ## 3. Changes in place -/

/-- Values and blocks change in place, and what becomes of them is as it should be. -/
theorem map {F : BlockId → Block → Block} {G : ValueId → Value → Value}
    (hF : ∀ b, g'.block? b = (g.block? b).map (F b))
    (hG : ∀ v, g'.value? v = (g.value? v).map (G v))
    (he : g.Evolves g') (hproper : ∀ {v x}, g.value? v = some x → g.Proper (G v x))
    (hpreds : ∀ {b y q}, g.block? b = some y → q ∈ (F b y).preds →
      q ∈ y.preds ∨ ∃ z, g.block? q = some z)
    (husers : ∀ {v u}, u ∈ g'.users v → g.KnowsUser u)
    (hforwards : ∀ {v o}, g'.forwards.get? v = some o →
      ∃ ty, g.typeOf? (.value v) = some ty ∧ g.typeOf? o = some ty) : g'.Intact := by
  refine ⟨fun {v x'} hx => ?_, fun {b y' q} hy hq => ?_, fun hu => he.knowsUser (husers hu),
    fun {v o} ho => ?_⟩
  · rw [hG] at hx
    obtain ⟨x, hx₀, rfl⟩ := Option.map_eq_some_iff.1 hx
    exact (hproper hx₀).mono he
  · rw [hF] at hy
    obtain ⟨y, hy₀, rfl⟩ := Option.map_eq_some_iff.1 hy
    rcases hpreds hy₀ hq with hq | ⟨z, hz⟩
    · obtain ⟨z, hz⟩ := h.preds hy₀ hq
      exact he.blocks hz
    · exact he.blocks hz
  · obtain ⟨ty, hty, hty'⟩ := hforwards ho
    exact ⟨ty, he.types _ _ hty, he.types _ _ hty'⟩

/-- Names and origins play no part. -/
theorem alike (ha : g.Alike g') : g'.Intact := by
  have he : g.Evolves g' := .of_alike ha
  obtain ⟨G, hG, hsame⟩ := ha.value
  refine ⟨fun {v x'} hx => ?_, fun {b y q} hy hq => ?_, fun {v u} hu => he.knowsUser ?_,
    fun {v o} ho => ?_⟩
  · rw [hG] at hx
    obtain ⟨x, hx₀, rfl⟩ := Option.map_eq_some_iff.1 hx
    obtain ⟨-, hty, hb, hk⟩ := hsame v x
    have hproper := (h.values hx₀).mono he
    have hphi : (G v x).isPhi = x.isPhi := by
      unfold Value.isPhi
      rw [hk]
    have hops : (G v x).operands = x.operands := by
      unfold Value.operands
      rw [hk]
    refine ⟨fun e => hproper.owner (hb ▸ e), fun e o ho => ?_⟩
    exact hty ▸ hproper.phi (hphi ▸ e) o (hops ▸ ho)
  · unfold block? at hy ⊢
    rw [ha.blocks] at hy ⊢
    exact h.preds hy hq
  · unfold Graph.users at hu
    rw [ha.uses] at hu
    exact h.users hu
  · rw [ha.forwards] at ho
    obtain ⟨ty, hty, hty'⟩ := h.forwards ho
    exact ⟨ty, he.types _ _ hty, he.types _ _ hty'⟩

/-- A block changes, but not its predecessors. -/
theorem updateBlock (b : BlockId) {f : Block → Block} (hf : ∀ y, (f y).preds = y.preds) :
    (g.updateBlock b f).Intact := by
  refine h.map (F := fun c => if b = c then f else id) (G := fun _ => id) (fun c => ?_)
    (fun v => Option.map_id.symm ▸ rfl) (.updateBlock g b f) h.values
    (fun {c y q} hy hq => .inl ?_) h.users h.forwards
  · rw [block?_updateBlock]
    split
    · rfl
    · exact (Option.map_id_apply).symm
  · split at hq
    · rwa [hf] at hq
    · exact hq

/-- A new edge between blocks that are there. -/
theorem link {p : BlockId} {z : Block} (hp : g.block? p = some z) (cond : Option Operand)
    (b : BlockId) : (g.link p cond b).Intact := by
  refine h.map (G := fun _ => id) (fun c => block?_link g p cond b c)
    (fun v => (value?_link g p cond b v).trans (Option.map_id_apply).symm) (.link g p cond b)
    h.values (fun {c y q} hy hq => ?_) (fun {v u} hu => ?_) fun ho => h.forwards ?_
  · rcases mem_preds_linkBlock.1 hq with ⟨-, rfl⟩ | hq
    · exact .inr ⟨z, hp⟩
    · exact .inl hq
  · rcases (mem_users_link g p cond b v u).1 hu with ⟨rfl, -⟩ | hu
    · exact ⟨z, hp⟩
    · exact h.users hu
  · rwa [forwards_link] at ho

omit h in
theorem mem_users_withIncoming (g : Graph) (v : ValueId) (p : Phi) (o : Operand) (q : BlockId)
    (w : ValueId) (u : User) :
    u ∈ (g.withIncoming v p o q).users w ↔ (u = .value v ∧ o = .value w) ∨ u ∈ g.users w := by
  unfold Graph.withIncoming
  rw [mem_users_addUses, users_updateValue, List.mem_singleton, eq_comm (a := Operand.value w)]

/-- A phi takes one more operand of its type. -/
theorem withIncoming {p : Phi} (hx : g.value? v = some x) (hk : x.kind = .phi p)
    (ho : g.typeOf? o = some x.ty) (q : BlockId) : (g.withIncoming v p o q).Intact := by
  have hphi : x.isPhi = true := by
    unfold Value.isPhi
    rw [hk]
  refine h.map (F := fun _ => id) (fun c => ?_) (value?_withIncoming g v p o q)
    (.withIncoming g v p o q) (fun {w z} hz => ?_) (fun _ hq => .inl hq) (fun {w u} hu => ?_)
    fun {w a} ha => h.forwards ?_
  · rw [block?_withIncoming, Option.map_id]
    rfl
  · split
    · rename_i e
      subst e
      cases hx.symm.trans hz
      refine ⟨(h.values hx).owner, fun _ a ha => ?_⟩
      have hmem : a ∈ (p.incoming ++ [(o, q)]).map Prod.fst := ha
      rw [List.map_append] at hmem
      rcases List.mem_append.1 hmem with hold | hnew
      · refine (h.values hx).phi hphi a ?_
        unfold Value.operands
        rwa [hk]
      · rw [List.mem_singleton.1 hnew]
        exact ho
    · exact h.values hz
  · rcases (mem_users_withIncoming g v p o q w u).1 hu with ⟨rfl, -⟩ | hu
    · exact ⟨x, hx⟩
    · exact h.users hu
  · rwa [forwards_withIncoming] at ha

/-! ## 4. Removal -/

/-- Everybody who referred to a value refers to one of its type. -/
theorem rerouted (hx : g.value? v = some x) (ho : g.typeOf? o = some x.ty) {done : List User}
    (hdone : ∀ u ∈ done, g.KnowsUser u) (hr : Rerouted v o done g g') : g'.Intact := by
  refine h.map hr.block hr.value (.rerouted hr) (fun {w z} hz => ?_) (fun {b y q} _ hq => ?_)
    (fun {w u} hu => ?_) fun ha => h.forwards (hr.forwards ▸ ha)
  · split
    · refine ⟨(h.values hz).owner, fun hphi a ha => ?_⟩
      rw [Value.operands_replace] at ha
      obtain ⟨a', ha', rfl⟩ := List.mem_map.1 ha
      rw [typeOf?_replace (ho.trans (typeOf?_value hx).symm)]
      exact (h.values hz).phi (by rwa [Value.isPhi_replace] at hphi) a' ha'
    · exact h.values hz
  · split at hq
    · exact .inl hq
    · exact .inl hq
  · rcases (hr.users w u).1 hu with ⟨-, hu⟩ | ⟨-, hu⟩
    · exact h.users hu
    · exact hdone u hu

/-- A value is taken out of its block. -/
theorem without (v : ValueId) (x : Value) (b : BlockId) : (g.without v x b).Intact := by
  refine h.map (block?_without_map g v x b) (value?_without g v x b) (.without g v x b)
    (fun {w z} hz => ?_) (fun {c y q} _ hq => .inl ?_)
    (fun hu => h.users ((mem_users_without g v x b _ _).1 hu).1)
    fun ha => h.forwards (forwards_without g v x b ▸ ha)
  · split
    · exact ⟨fun e => (by cases e), (h.values hz).phi⟩
    · exact h.values hz
  · split at hq
    · split at hq
      · exact hq
      · exact hq
    · exact hq

/-- What a removed value stands for is of its type. -/
theorem setForward (hty : g.typeOf? (.value v) = some ty) (ho : g.typeOf? o = some ty) :
    (g.setForward v o).Intact := by
  refine h.map (F := fun _ => id) (G := fun _ => id) (fun _ => (Option.map_id_apply).symm)
    (fun _ => (Option.map_id_apply).symm) (.setForward g v o) h.values
    (fun _ hq => .inl hq) h.users fun {w a} ha => ?_
  have hget : (g.forwards.insert v o).get? w = some a := ha
  rw [Table.get?_insert] at hget
  split at hget
  · rename_i e
    cases hget
    exact ⟨ty, e ▸ hty, ho⟩
  · exact h.forwards hget

/-! ## 5. New blocks and values -/

theorem pushBlock (label : String) (kind : BlockKind) : (g.pushBlock label kind).Intact := by
  have he : g.Evolves (g.pushBlock label kind) := .pushBlock g label kind
  refine ⟨fun hx => (h.values hx).mono he, fun {b y q} hy hq => ?_,
    fun hu => he.knowsUser (h.users hu), fun ha => ?_⟩
  · rw [block?_pushBlock] at hy
    split at hy
    · cases hy
      cases hq
    · obtain ⟨z, hz⟩ := h.preds hy hq
      exact he.blocks hz
  · obtain ⟨ty, hty, hty'⟩ := h.forwards ha
    exact ⟨ty, hty, he.types _ _ hty'⟩

/-- A new value, as it should be. -/
theorem push {new : Value} {F : BlockId → Block → Block}
    (hv : ∀ v, g'.value? v = if v = g.nextValue then some new else g.value? v)
    (hF : ∀ c, g'.block? c = (g.block? c).map (F c)) (hpreds : ∀ c y, (F c y).preds = y.preds)
    (hnew : g.Proper new)
    (husers : ∀ {v u}, u ∈ g'.users v → u = .value g.nextValue ∨ g.KnowsUser u)
    (hforwards : g'.forwards = g.forwards) : g'.Intact := by
  have he : g.Evolves g' := .of_push hv fun {c y} hy => ⟨F c y, by rw [hF, hy]; rfl⟩
  refine ⟨fun {v x} hx => ?_, fun {c y' q} hy hq => ?_, fun {v u} hu => ?_, fun {v a} ha => ?_⟩
  · rw [hv] at hx
    split at hx
    · cases hx
      exact hnew.mono he
    · exact (h.values hx).mono he
  · rw [hF] at hy
    obtain ⟨y, hy₀, rfl⟩ := Option.map_eq_some_iff.1 hy
    rw [hpreds] at hq
    obtain ⟨z, hz⟩ := h.preds hy₀ hq
    exact he.blocks hz
  · rcases husers hu with rfl | hu
    · exact ⟨new, by rw [hv, if_pos rfl]⟩
    · exact he.knowsUser hu
  · obtain ⟨ty, hty, hty'⟩ := h.forwards (hforwards ▸ ha)
    exact ⟨ty, he.types _ _ hty, he.types _ _ hty'⟩

theorem withPhi {y : Block} (hb : g.block? b = some y) (x : VarId) (ty : Ty) :
    (g.withPhi b x ty).Intact := by
  refine h.push (value?_withPhi g b x ty) (block?_withPhi g b x ty) (fun _ _ => rfl) ?_
    (fun hu => .inr (h.users hu)) rfl
  refine ⟨fun e => ?_, fun _ a ha => (by cases ha)⟩
  cases e
  exact ⟨y, hb⟩

/-- A new instruction; its operands need not be there. -/
theorem withInstr {y : Block} (hb : g.block? b = some y) (place : Nat) (ty : Ty) (origin : Origin)
    (i : Instr) : (g.withInstr b place ty origin i).Intact := by
  refine h.push (value?_withInstr g b place ty origin i) (block?_withInstr g b place ty origin i)
    (fun _ _ => rfl) ?_ (fun {v u} hu => ?_) (forwards_withInstr g b place ty origin i)
  · refine ⟨fun e => ?_, fun e => (by cases e)⟩
    cases e
    exact ⟨y, hb⟩
  · unfold Graph.withInstr at hu
    rcases (mem_users_addUses _ _ _ _ _).1 hu with ⟨rfl, -⟩ | hu
    · exact .inl rfl
    · exact .inr (h.users hu)

end Intact

end Graph

end BitFlow
