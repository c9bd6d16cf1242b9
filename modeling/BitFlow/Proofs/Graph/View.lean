import BitFlow.Proofs.Graph.Forward

/-!
# What the algorithms see of a graph

The algorithms ask a graph for three things: the attached phis, the attached instructions, and the
shape of its blocks -- predecessors, seals, instructions and targets of branches. Each change of
the graph is described here by what it does to these three.
-/

namespace BitFlow

/-! ## 1. Phis, instructions and shapes -/

/-- An attached phi, without its name and origin. -/
structure OwnedPhi where
  block : BlockId
  ty : Ty
  var : VarId
  incoming : List (Operand × BlockId)
  deriving DecidableEq

namespace OwnedPhi

/-- The predecessors for which the phi has operands. -/
def sources (p : OwnedPhi) : List BlockId := p.incoming.map Prod.snd

/-- The operands of the phi. -/
def operands (p : OwnedPhi) : List Operand := p.incoming.map Prod.fst

/-- The phi with `b` in place of each operand `a`. -/
def replace (a b : Operand) (p : OwnedPhi) : OwnedPhi :=
  { p with incoming := p.incoming.map fun s => (Operand.replace a b s.1, s.2) }

/-- The phi with a further operand. -/
def push (p : OwnedPhi) (o : Operand) (q : BlockId) : OwnedPhi :=
  { p with incoming := p.incoming ++ [(o, q)] }

@[simp] theorem block_replace (a b : Operand) (p : OwnedPhi) :
    (p.replace a b).block = p.block := rfl

@[simp] theorem ty_replace (a b : Operand) (p : OwnedPhi) : (p.replace a b).ty = p.ty := rfl

@[simp] theorem var_replace (a b : Operand) (p : OwnedPhi) : (p.replace a b).var = p.var := rfl

@[simp] theorem sources_replace (a b : Operand) (p : OwnedPhi) :
    (p.replace a b).sources = p.sources := by
  simp [sources, replace, Function.comp_def]

@[simp] theorem operands_replace (a b : Operand) (p : OwnedPhi) :
    (p.replace a b).operands = p.operands.map (Operand.replace a b) := by
  simp [operands, replace, Function.comp_def]

@[simp] theorem block_push (p : OwnedPhi) (o : Operand) (q : BlockId) :
    (p.push o q).block = p.block := rfl

@[simp] theorem ty_push (p : OwnedPhi) (o : Operand) (q : BlockId) : (p.push o q).ty = p.ty := rfl

@[simp] theorem var_push (p : OwnedPhi) (o : Operand) (q : BlockId) :
    (p.push o q).var = p.var := rfl

@[simp] theorem sources_push (p : OwnedPhi) (o : Operand) (q : BlockId) :
    (p.push o q).sources = p.sources ++ [q] := by
  simp [sources, push]

theorem mem_incoming_replace {a b o : Operand} {p : OwnedPhi} {q : BlockId} :
    (o, q) ∈ (p.replace a b).incoming ↔ ∃ o', (o', q) ∈ p.incoming ∧ Operand.replace a b o' = o := by
  unfold replace
  rw [List.mem_map]
  constructor
  · rintro ⟨⟨o', q'⟩, hm, e⟩
    obtain ⟨e1, e2⟩ := Prod.mk.inj e
    subst e2
    exact ⟨o', hm, e1⟩
  · rintro ⟨o', hm, e⟩
    exact ⟨(o', q), hm, by rw [e]⟩

end OwnedPhi

/-- An attached instruction, without its name and origin. -/
structure OwnedInstr where
  block : BlockId
  ty : Ty
  instr : Instr
  deriving DecidableEq

/-- The instruction with `b` in place of each operand `a`. -/
def OwnedInstr.replace (a b : Operand) (i : OwnedInstr) : OwnedInstr :=
  { i with instr := { i.instr with operands := i.instr.operands.map (Operand.replace a b) } }

/-- What of a block does not depend on its phis and on the operands of its conditions. -/
structure Shape where
  kind : BlockKind
  instrs : List ValueId
  preds : List BlockId
  targets : List BlockId
  isSealed : Bool
  deriving DecidableEq

/-- The shape of a block. -/
def Block.shape (y : Block) : Shape :=
  ⟨y.kind, y.instrs, y.preds, y.branches.map Branch.target, y.isSealed⟩

namespace Value

/-- The phi that an attached value is, if it is one. -/
def phi? (x : Value) : Option OwnedPhi :=
  match x.block, x.kind with
  | some b, .phi p => some ⟨b, x.ty, p.var, p.incoming⟩
  | _, _ => none

/-- The instruction that an attached value is, if it is one. -/
def instr? (x : Value) : Option OwnedInstr :=
  match x.block, x.kind with
  | some b, .instr i => some ⟨b, x.ty, i⟩
  | _, _ => none

theorem phi?_eq_some {x : Value} {p : OwnedPhi} :
    x.phi? = some p ↔
      x.block = some p.block ∧ x.ty = p.ty ∧ x.kind = .phi ⟨p.var, p.incoming⟩ := by
  rcases x with ⟨id, ty, name, origin, block, kind⟩
  rcases p with ⟨b, ty', x, inc⟩
  cases block <;> cases kind <;> simp [phi?]
  rename_i q
  cases q
  simp

theorem instr?_eq_some {x : Value} {i : OwnedInstr} :
    x.instr? = some i ↔ x.block = some i.block ∧ x.ty = i.ty ∧ x.kind = .instr i.instr := by
  rcases x with ⟨id, ty, name, origin, block, kind⟩
  rcases i with ⟨b, ty', i⟩
  cases block <;> cases kind <;> simp [instr?]

theorem phi?_replace (a b : Operand) (x : Value) :
    (x.replace a b).phi? = x.phi?.map (OwnedPhi.replace a b) := by
  rcases x with ⟨id, ty, name, origin, block, kind⟩
  cases block <;> cases kind <;> rfl

theorem instr?_replace (a b : Operand) (x : Value) :
    (x.replace a b).instr? = x.instr?.map (OwnedInstr.replace a b) := by
  rcases x with ⟨id, ty, name, origin, block, kind⟩
  cases block <;> cases kind <;> rfl

theorem isAttached_iff (x : Value) :
    x.isAttached = true ↔ x.phi?.isSome = true ∨ x.instr?.isSome = true := by
  rcases x with ⟨id, ty, name, origin, block, kind⟩
  cases block <;> cases kind <;> simp [isAttached, phi?, instr?]

end Value

namespace Graph

/-- The attached phi of that name. -/
def phi? (g : Graph) (v : ValueId) : Option OwnedPhi := (g.value? v).bind Value.phi?

/-- The attached instruction of that name. -/
def instr? (g : Graph) (v : ValueId) : Option OwnedInstr := (g.value? v).bind Value.instr?

/-- The shape of the block of that name. -/
def shape (g : Graph) (b : BlockId) : Option Shape := (g.block? b).map Block.shape

theorem phi?_eq_some {g : Graph} {v : ValueId} {p : OwnedPhi} :
    g.phi? v = some p ↔
      ∃ x, g.value? v = some x ∧ x.block = some p.block ∧ x.ty = p.ty ∧
        x.kind = .phi ⟨p.var, p.incoming⟩ := by
  unfold phi?
  rw [Option.bind_eq_some_iff]
  simp only [Value.phi?_eq_some]

theorem instr?_eq_some {g : Graph} {v : ValueId} {i : OwnedInstr} :
    g.instr? v = some i ↔
      ∃ x, g.value? v = some x ∧ x.block = some i.block ∧ x.ty = i.ty ∧
        x.kind = .instr i.instr := by
  unfold instr?
  rw [Option.bind_eq_some_iff]
  simp only [Value.instr?_eq_some]

theorem attached_iff {g : Graph} {v : ValueId} :
    g.Attached v ↔ (∃ p, g.phi? v = some p) ∨ ∃ i, g.instr? v = some i := by
  unfold Attached phi? instr?
  cases g.value? v with
  | none => simp
  | some x => simp [Value.isAttached_iff, Option.isSome_iff_exists]

theorem attached_of_phi? {g : Graph} {v : ValueId} {p : OwnedPhi} (h : g.phi? v = some p) :
    g.Attached v := attached_iff.2 (.inl ⟨p, h⟩)

theorem attached_of_instr? {g : Graph} {v : ValueId} {i : OwnedInstr}
    (h : g.instr? v = some i) : g.Attached v := attached_iff.2 (.inr ⟨i, h⟩)

theorem Attached.index_lt {g : Graph} {v : ValueId} (h : g.Attached v) :
    v.index < g.values.size := by
  obtain ⟨x, hx, -⟩ := h
  exact index_lt_of_value? hx

/-- Who refers to a value, told by phis and instructions. -/
theorem refers_value_iff {g : Graph} {v w : ValueId} :
    g.Refers v (.value w) ↔
      (∃ p, g.phi? w = some p ∧ Operand.value v ∈ p.operands) ∨
        ∃ i, g.instr? w = some i ∧ Operand.value v ∈ i.instr.operands := by
  rw [refers_value]
  unfold phi? instr?
  cases hw : g.value? w with
  | none => simp
  | some x =>
    rcases x with ⟨id, ty, name, origin, block, kind⟩
    cases block <;> cases kind <;>
      simp [Value.isAttached, Value.operands, Value.phi?, Value.instr?, OwnedPhi.operands]

/-! ## 2. What changes do to them -/

theorem phi?_withPhi (g : Graph) (b : BlockId) (x : VarId) (ty : Ty) (v : ValueId) :
    (g.withPhi b x ty).phi? v =
      if v = g.nextValue then some ⟨b, ty, x, []⟩ else g.phi? v := by
  unfold phi?
  rw [value?_withPhi]
  by_cases e : v = g.nextValue
  · simp [e, Value.phi?]
  · simp [e]

theorem instr?_withPhi (g : Graph) (b : BlockId) (x : VarId) (ty : Ty) (v : ValueId) :
    (g.withPhi b x ty).instr? v = g.instr? v := by
  unfold instr?
  rw [value?_withPhi]
  by_cases e : v = g.nextValue
  · simp [e, Value.instr?, value?_nextValue]
  · simp [e]

theorem shape_withPhi (g : Graph) (b : BlockId) (x : VarId) (ty : Ty) (c : BlockId) :
    (g.withPhi b x ty).shape c = g.shape c := by
  unfold shape
  rw [block?_withPhi, Option.map_map]
  rfl

theorem phi?_withIncoming {g : Graph} {v : ValueId} {p : OwnedPhi} (hv : g.phi? v = some p)
    (o : Operand) (q : BlockId) (w : ValueId) :
    (g.withIncoming v ⟨p.var, p.incoming⟩ o q).phi? w =
      if w = v then some (p.push o q) else g.phi? w := by
  unfold phi?
  rw [value?_withIncoming]
  by_cases e : w = v
  · subst e
    obtain ⟨x, hx, hb, ht, hk⟩ := phi?_eq_some.1 hv
    rw [hx]
    simp [Value.phi?, hb, ht, OwnedPhi.push]
  · have e' : v ≠ w := fun h => e h.symm
    simp [e, e']

theorem instr?_withIncoming {g : Graph} {v : ValueId} {p : OwnedPhi} (hv : g.phi? v = some p)
    (o : Operand) (q : BlockId) (w : ValueId) :
    (g.withIncoming v ⟨p.var, p.incoming⟩ o q).instr? w = g.instr? w := by
  unfold instr?
  rw [value?_withIncoming]
  by_cases e : v = w
  · subst e
    obtain ⟨x, hx, hb, ht, hk⟩ := phi?_eq_some.1 hv
    rw [hx]
    simp [Value.instr?, hb, hk]
  · simp [e]

theorem shape_withIncoming (g : Graph) (v : ValueId) (phi : Phi) (o : Operand) (q c : BlockId) :
    (g.withIncoming v phi o q).shape c = g.shape c := by
  unfold shape
  rw [block?_withIncoming]

theorem attached_withPhi (g : Graph) (b : BlockId) (x : VarId) (ty : Ty) (v : ValueId) :
    (g.withPhi b x ty).Attached v ↔ v = g.nextValue ∨ g.Attached v := by
  rw [attached_iff, attached_iff, phi?_withPhi, instr?_withPhi]
  by_cases e : v = g.nextValue
  · simp [e]
  · simp [e]

theorem size_withPhi (g : Graph) (b : BlockId) (x : VarId) (ty : Ty) :
    (g.withPhi b x ty).values.size = g.values.size + 1 := by
  simp [Graph.withPhi, Graph.updateBlock, Graph.pushValue]

theorem attached_withIncoming {g : Graph} {v : ValueId} {p : OwnedPhi} (hv : g.phi? v = some p)
    (o : Operand)
    (q : BlockId) (w : ValueId) :
    (g.withIncoming v ⟨p.var, p.incoming⟩ o q).Attached w ↔ g.Attached w := by
  rw [attached_iff, attached_iff, phi?_withIncoming hv, instr?_withIncoming hv]
  by_cases e : w = v
  · simp [e, hv]
  · simp [e]

theorem size_withIncoming (g : Graph) (v : ValueId) (phi : Phi) (o : Operand) (q : BlockId) :
    (g.withIncoming v phi o q).values.size = g.values.size := by
  unfold Graph.withIncoming
  rw [addUses_eq]
  simp [Graph.updateValue]

theorem forwards_withIncoming (g : Graph) (v : ValueId) (phi : Phi) (o : Operand) (q : BlockId) :
    (g.withIncoming v phi o q).forwards = g.forwards := by
  unfold Graph.withIncoming
  rw [forwards_addUses]
  rfl

theorem Retired.phi? {v : ValueId} {o : Operand} {g g' : Graph} (h : Retired v o g g')
    (w : ValueId) :
    g'.phi? w = if w = v then none else (g.phi? w).map (OwnedPhi.replace (.value v) o) := by
  unfold Graph.phi?
  rw [h.value]
  cases g.value? w with
  | none => simp
  | some x =>
    by_cases e : w = v
    · simp [e, Value.phi?, Value.retire]
    · rcases x with ⟨id, ty, name, origin, block, kind⟩
      cases block with
      | none => simp [e, Value.isAttached, Value.phi?]
      | some b =>
        simp only [e, Value.isAttached, if_false, if_true, Option.isSome_some, Option.map_some,
          Option.bind_some]
        exact Value.phi?_replace _ _ _

theorem Retired.instr? {v : ValueId} {o : Operand} {g g' : Graph} (h : Retired v o g g')
    (hv : (g.phi? v).isSome = true) (w : ValueId) :
    g'.instr? w = (g.instr? w).map (OwnedInstr.replace (.value v) o) := by
  unfold Graph.instr?
  rw [h.value]
  cases hw : g.value? w with
  | none => simp
  | some x =>
    by_cases e : w = v
    · subst e
      unfold Graph.phi? at hv
      rw [hw] at hv
      rcases x with ⟨id, ty, name, origin, block, kind⟩
      cases block <;> cases kind <;> simp [Value.phi?, Value.instr?, Value.retire] at hv ⊢
    · rcases x with ⟨id, ty, name, origin, block, kind⟩
      cases block with
      | none => simp [e, Value.isAttached, Value.instr?]
      | some b =>
        simp only [e, Value.isAttached, if_false, if_true, Option.isSome_some, Option.map_some,
          Option.bind_some]
        exact Value.instr?_replace _ _ _

theorem Retired.shape {v : ValueId} {o : Operand} {g g' : Graph} (h : Retired v o g g')
    (b : BlockId) : g'.shape b = g.shape b := by
  unfold Graph.shape
  rw [h.block, Option.map_map]
  congr 1
  funext y
  simp [Block.shape, Block.retire, Block.replaceConds, Function.comp_def]

theorem Alike.phi? {g g' : Graph} (h : g.Alike g') (v : ValueId) : g'.phi? v = g.phi? v := by
  obtain ⟨G, hG, hGx⟩ := h.value
  unfold Graph.phi?
  rw [hG]
  cases g.value? v with
  | none => rfl
  | some x =>
    obtain ⟨-, ht, hb, hk⟩ := hGx v x
    simp only [Option.map_some, Option.bind_some, Value.phi?, ht, hb, hk]

theorem Alike.instr? {g g' : Graph} (h : g.Alike g') (v : ValueId) : g'.instr? v = g.instr? v := by
  obtain ⟨G, hG, hGx⟩ := h.value
  unfold Graph.instr?
  rw [hG]
  cases g.value? v with
  | none => rfl
  | some x =>
    obtain ⟨-, ht, hb, hk⟩ := hGx v x
    simp only [Option.map_some, Option.bind_some, Value.instr?, ht, hb, hk]

theorem Alike.shape {g g' : Graph} (h : g.Alike g') (b : BlockId) : g'.shape b = g.shape b := by
  unfold Graph.shape
  rw [h.block?]

theorem Alike.attached {g g' : Graph} (h : g.Alike g') (v : ValueId) :
    g'.Attached v ↔ g.Attached v := by
  rw [attached_iff, attached_iff, h.phi?, h.instr?]

theorem Forwarding.alike {g g' : Graph} (h : g.Forwarding) (ha : g.Alike g') :
    g'.Forwarding := by
  refine ⟨?_, fun v => ?_, fun hm => ?_⟩
  · rw [ha.forwards]
    exact h.ordered
  · rw [ha.forwards, ha.size, ha.attached]
    exact h.removed v
  · rw [ha.forwards] at hm
    rw [ha.size]
    exact h.target_known hm

/-- What an operand stands for depends on the forwards alone. -/
theorem resolve_congr {g g' : Graph} (h : g'.forwards = g.forwards) (o : Operand) :
    g'.resolve o = g.resolve o := by
  have hw : ∀ n o, g'.resolveWithin n o = g.resolveWithin n o := by
    intro n
    induction n with
    | zero => intro o; cases o <;> rfl
    | succ n ih =>
      intro o
      cases o with
      | value v =>
        unfold resolveWithin
        rw [h]
        cases g.forwards.get? v with
        | none => rfl
        | some t => simp only [ih]
      | lit c => rfl
      | undef ty => rfl
  unfold Graph.resolve
  rw [h, hw]

theorem Alike.resolve {g g' : Graph} (h : g.Alike g') (o : Operand) :
    g'.resolve o = g.resolve o := resolve_congr h.forwards o

end Graph

end BitFlow
