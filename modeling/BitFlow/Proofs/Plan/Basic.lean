import BitFlow.Proofs.Graph.Route
import BitFlow.Proofs.Meaning.Draft
import Mathlib.Logic.Function.Basic

/-!
# Plans

A plan is a draft together with the skeleton of the control flow: how many blocks there are, which
of them are dead or closed, and for every block its code and its jumps, both with the operands they
were given. What the lowering of statements does is told on plans, where no phi is ever removed; the
graph is built to the plan.

Main statements: `Built.edge_iff`, `Built.grounded` -- the control flow of the plan is that of the
graph; `Built.typeOf_read` -- what a variable holds is of its type.
-/

namespace BitFlow

/-! ## 1. Roles and types -/

/-- The type of a declared variable. -/
def declaredType (vars : List Variable) (x : VarId) : Ty :=
  ((variableById? vars x).map Variable.ty).getD .bit

theorem declaredType_of {vars : List Variable} {x : VarId} {d : Variable}
    (h : variableById? vars x = some d) : declaredType vars x = d.ty := by
  unfold declaredType
  rw [h]
  rfl

/-- The type of a value, told by its role: a phi has that of its variable. -/
def Role.ty (vars : List Variable) : Role → Ty
  | .phi _ x => declaredType vars x
  | .code _ ty _ => ty

namespace Roles

/-- The instruction that a value was made for, if it was made for one. -/
def instr? (R : Roles) (v : ValueId) : Option OwnedInstr :=
  match R v with
  | some (.code b ty i) => some ⟨b, ty, i⟩
  | _ => none

/-- The type of an operand, told by roles. -/
def typeOf (R : Roles) (vars : List Variable) : Operand → Ty
  | .value v => ((R v).map (Role.ty vars)).getD .bit
  | .lit c => c.ty
  | .undef ty => ty

/-- Every value that an operand names has a role. -/
def Knows (R : Roles) (o : Operand) : Prop := ∀ v, o = .value v → ∃ r, R v = some r

variable {R R' : Roles}

theorem typeOf_value {v : ValueId} {r : Role} (h : R v = some r) (vars : List Variable) :
    R.typeOf vars (.value v) = r.ty vars := by
  unfold typeOf
  simp only [h]
  rfl

theorem instr?_eq_some {v : ValueId} {i : OwnedInstr} :
    R.instr? v = some i ↔ R v = some (.code i.block i.ty i.instr) := by
  unfold instr?
  split
  · rename_i b ty j h
    rw [h]
    constructor
    · rintro e
      cases e
      rfl
    · rintro e
      cases e
      rfl
  · rename_i h
    constructor
    · rintro e
      cases e
    · intro e
      exact absurd e (h _ _ _)

theorem Grows.instr? (h : R.Grows R') (v : ValueId) : R'.instr? v = R.instr? v := by
  cases hv : R.instr? v with
  | some i => exact instr?_eq_some.2 (h.keep (instr?_eq_some.1 hv))
  | none =>
    cases hv' : R'.instr? v with
    | none => rfl
    | some i =>
      rw [instr?_eq_some.2 (h.code (instr?_eq_some.1 hv'))] at hv
      cases hv

/-- Roles that are kept say the same about types. -/
theorem typeOf_keep (h : ∀ {v r}, R v = some r → R' v = some r) (vars : List Variable)
    {o : Operand} (ho : R.Knows o) : R'.typeOf vars o = R.typeOf vars o := by
  cases o with
  | lit c => rfl
  | undef ty => rfl
  | value v =>
    obtain ⟨r, hr⟩ := ho v rfl
    rw [typeOf_value hr, typeOf_value (h hr)]

theorem instr?_set (R : Roles) (v w : ValueId) (b : BlockId) (ty : Ty) (i : Instr) :
    (R.set v (.code b ty i)).instr? w = if w = v then some ⟨b, ty, i⟩ else R.instr? w := by
  unfold instr? set
  by_cases e : w = v
  · rw [if_pos e, if_pos e]
  · rw [if_neg e, if_neg e]

end Roles

/-! ## 2. Plans -/

/-- What a graph under construction was meant to be, block by block. -/
structure Plan extends Draft where
  /-- The number of blocks. -/
  count : Nat
  /-- Whether a block hosts code that nothing reaches. -/
  dead : BlockId → Bool
  /-- Whether a block is sealed. -/
  closed : BlockId → Bool
  /-- The instructions of a block. -/
  code : BlockId → List ValueId
  /-- The outgoing edges of a block, with the conditions that they were given. -/
  jumps : BlockId → List Branch

namespace Plan

/-- The block in which control starts. -/
def entry : BlockId := ⟨0⟩

/-- Some jump leads from `q` to `c`. -/
def Edge (p : Plan) (q c : BlockId) : Prop := ∃ br ∈ p.jumps q, br.target = c

/-- Control can reach `b`. -/
def Reached (p : Plan) (b : BlockId) : Prop := ∃ π, Trail entry p.Edge (b :: π)

/-- **The control flow is in order**: nothing leads back to the entry, and edges join live blocks
    and start where control can be. -/
structure Wired (p : Plan) : Prop where
  no_entry : ∀ {q}, ¬ p.Edge q entry
  source : ∀ {q c}, p.Edge q c → p.Reached q ∧ p.dead q = false ∧ p.dead c = false

variable {p p' : Plan}

theorem reached_entry (p : Plan) : p.Reached entry := ⟨[], .entry⟩

theorem Reached.step {q c : BlockId} (h : p.Reached q) (he : p.Edge q c) : p.Reached c := by
  obtain ⟨π, hπ⟩ := h
  exact ⟨q :: π, hπ.step he⟩

theorem Reached.mono {b : BlockId} (h : p.Reached b) (he : ∀ q c, p.Edge q c → p'.Edge q c) :
    p'.Reached b := by
  obtain ⟨π, hπ⟩ := h
  exact ⟨π, hπ.mono he⟩

/-- One block more. -/
def block (p : Plan) (dead : Bool) : Plan :=
  { p with count := p.count + 1, dead := Function.update p.dead ⟨p.count⟩ dead }

/-- One jump more. -/
def link (p : Plan) (q : BlockId) (cond : Option Operand) (c : BlockId) : Plan :=
  { p with jumps := Function.update p.jumps q (p.jumps q ++ [⟨cond, c⟩]) }

/-- Other roles, and more code in one block. -/
def extend (p : Plan) (b : BlockId) (R : Roles) (new : List ValueId) : Plan :=
  { p with roles := R, code := Function.update p.code b (p.code b ++ new) }

/-- One block closed; closing makes phis. -/
def close (p : Plan) (b : BlockId) (R : Roles) : Plan :=
  { p with roles := R, closed := Function.update p.closed b true }

/-- A variable written in a block. -/
def write (p : Plan) (b : BlockId) (x : VarId) (o : Operand) : Plan :=
  { p with writes := p.writes.set b x o }

/-- One block dead. -/
def kill (p : Plan) (b : BlockId) : Plan :=
  { p with dead := Function.update p.dead b true }

theorem dead_block_of_lt {c : BlockId} (h : c.index < p.count) (dead : Bool) :
    (p.block dead).dead c = p.dead c := by
  refine Function.update_of_ne ?_ _ _
  rintro rfl
  exact Nat.lt_irrefl _ h

@[simp] theorem dead_block_self (p : Plan) (dead : Bool) : (p.block dead).dead ⟨p.count⟩ = dead :=
  Function.update_self _ _ _

@[simp] theorem jumps_link_self (p : Plan) (q : BlockId) (cond : Option Operand) (c : BlockId) :
    (p.link q cond c).jumps q = p.jumps q ++ [⟨cond, c⟩] := Function.update_self _ _ _

theorem jumps_link_of_ne {q b : BlockId} (h : b ≠ q) (cond : Option Operand) (c : BlockId) :
    (p.link q cond c).jumps b = p.jumps b := Function.update_of_ne h _ _

@[simp] theorem code_extend_self (p : Plan) (b : BlockId) (R : Roles) (new : List ValueId) :
    (p.extend b R new).code b = p.code b ++ new := Function.update_self _ _ _

theorem code_extend_of_ne {b c : BlockId} (h : c ≠ b) (R : Roles) (new : List ValueId) :
    (p.extend b R new).code c = p.code c := Function.update_of_ne h _ _

theorem extend_nil (p : Plan) (b : BlockId) (R : Roles) :
    p.extend b R [] = { p with roles := R } := by
  unfold extend
  rw [List.append_nil, Function.update_eq_self]

theorem extend_extend (p : Plan) (b : BlockId) (R R' : Roles) (new new' : List ValueId) :
    (p.extend b R new).extend b R' new' = p.extend b R' (new ++ new') := by
  simp only [extend, Function.update_self, Function.update_idem, List.append_assoc]

@[simp] theorem closed_close_self (p : Plan) (b : BlockId) (R : Roles) :
    (p.close b R).closed b = true := Function.update_self _ _ _

theorem closed_close_of_ne {b c : BlockId} (h : c ≠ b) (R : Roles) :
    (p.close b R).closed c = p.closed c := Function.update_of_ne h _ _

theorem edge_link {q c a b : BlockId} {cond : Option Operand} :
    (p.link q cond c).Edge a b ↔ p.Edge a b ∨ (a = q ∧ b = c) := by
  unfold Edge
  by_cases e : a = q
  · subst e
    rw [jumps_link_self]
    simp [or_and_right, exists_or, eq_comm]
  · rw [jumps_link_of_ne e]
    simp [e]

end Plan

/-! ## 3. Built to a plan -/

/-- **The graph is built to the plan.** -/
structure Built (p : Plan) (s : Tracked) : Prop where
  drawn : Drawn p.toDraft s
  anchored : s.graph.Anchored
  wired : p.Wired
  entry : s.graph.entry = Plan.entry
  size : s.graph.blocks.size = p.count
  block : ∀ {c y}, s.graph.block? c = some y →
    y.isUnreachable = p.dead c ∧ y.isSealed = p.closed c ∧ y.instrs = p.code c
  /-- Of a block that does not exist yet nothing is planned. -/
  bare : ∀ {c : BlockId}, p.count ≤ c.index →
    p.closed c = false ∧ p.code c = [] ∧ p.jumps c = [] ∧ ∀ x, p.writes c x = none
  instr : ∀ v, s.graph.instr? v = (p.roles.instr? v).map s.graph.settleInstr
  branches : ∀ c, s.graph.branches c = (p.jumps c).map s.graph.settleBranch
  ordered : ∀ c, (p.code c).Pairwise fun v w => v.index < w.index
  /-- Operands are older than the instruction and available in its block. -/
  operands : ∀ {v b ty i}, p.roles v = some (.code b ty i) → ∀ o ∈ i.operands,
    (∀ w, o = .value w → w.index < v.index) ∧
      ∀ {T : Type} {m : Meaning T}, Models p.toDraft s m → m.Avail o b
  conds : ∀ {b br o}, br ∈ p.jumps b → br.cond = some o → s.graph.Knows o ∧
    ∀ {T : Type} {m : Meaning T}, Models p.toDraft s m → m.Avail o b
  typed : ∀ {b x o}, p.writes b x = some o → ∃ d, variableById? s.reaching.vars x = some d ∧
    p.roles.typeOf s.reaching.vars o = d.ty

namespace Built

variable {p : Plan} {s : Tracked}

theorem steady (h : Built p s) : s.graph.Steady := h.drawn.sane.steady

theorem orderly (h : Built p s) : s.graph.Orderly := h.steady.orderly

theorem known (h : Built p s) {b : BlockId} (hb : b.index < p.count) :
    ∃ y, s.graph.block? b = some y :=
  Graph.exists_block? (Nat.lt_of_lt_of_eq hb h.size.symm)

theorem index_lt (h : Built p s) {b : BlockId} {y : Block} (hb : s.graph.block? b = some y) :
    b.index < p.count :=
  Nat.lt_of_lt_of_eq (Graph.index_lt_of_block? hb) h.size

/-- **Jumps are the edges of the graph.** -/
theorem edge_iff (h : Built p s) {q c : BlockId} : s.graph.Edge q c ↔ p.Edge q c := by
  unfold Graph.Edge Plan.Edge
  rw [h.branches]
  constructor
  · rintro ⟨br, hbr, rfl⟩
    obtain ⟨br', hbr', rfl⟩ := List.mem_map.1 hbr
    exact ⟨br', hbr', rfl⟩
  · rintro ⟨br, hbr, rfl⟩
    exact ⟨_, List.mem_map.2 ⟨br, hbr, rfl⟩, rfl⟩

theorem mem_preds (h : Built p s) {q c : BlockId} : q ∈ s.graph.preds c ↔ p.Edge q c :=
  h.orderly.edge_iff.symm.trans h.edge_iff

theorem reached_iff (h : Built p s) {b : BlockId} : s.graph.Reached b ↔ p.Reached b := by
  unfold Graph.Reached Plan.Reached
  rw [← h.entry]
  constructor
  · rintro ⟨π, hπ⟩
    exact ⟨π, hπ.mono fun _ _ => h.edge_iff.1⟩
  · rintro ⟨π, hπ⟩
    exact ⟨π, hπ.mono fun _ _ => h.edge_iff.2⟩

theorem edge_known (h : Built p s) {q c : BlockId} (he : p.Edge q c) :
    q.index < p.count ∧ c.index < p.count := by
  obtain ⟨⟨z, hz⟩, y, hy⟩ := h.orderly.block_of_mem_preds (h.mem_preds.2 he)
  exact ⟨h.index_lt hz, h.index_lt hy⟩

theorem entry_preds (h : Built p s) : s.graph.preds s.graph.entry = [] := by
  refine List.eq_nil_iff_forall_not_mem.2 fun q hq => ?_
  rw [h.entry] at hq
  exact h.wired.no_entry (h.mem_preds.1 hq)

theorem entry_known (h : Built p s) : Plan.entry.index < p.count := by
  obtain ⟨y, hy⟩ := h.orderly.entry_known
  rw [h.entry] at hy
  exact h.index_lt hy

theorem reached_known (h : Built p s) {b : BlockId} (hb : p.Reached b) : b.index < p.count := by
  obtain ⟨y, hy⟩ := (h.reached_iff.2 hb).known h.orderly
  exact h.index_lt hy

/-- **A search through predecessors ends.** -/
theorem grounded (h : Built p s) : s.graph.Grounded :=
  Graph.grounded_of_reached h.orderly h.entry_preds fun _ _ hq =>
    h.reached_iff.2 (h.wired.source (h.mem_preds.1 hq)).1

/-- What exists has a role. -/
theorem roles_knows (h : Built p s) {o : Operand} (ho : s.graph.Knows o) : p.roles.Knows o :=
  fun v hv => h.drawn.covers.total (ho v hv)

/-- The instructions of a block are the values that were made for it. -/
theorem mem_code (h : Built p s) {v : ValueId} {b : BlockId} :
    v ∈ p.code b ↔ ∃ ty i, p.roles v = some (.code b ty i) := by
  constructor
  · intro hv
    obtain ⟨y, hy⟩ : ∃ y, s.graph.block? b = some y := by
      refine h.known (Nat.lt_of_not_le fun hle => ?_)
      rw [(h.bare hle).2.1] at hv
      cases hv
    rw [← (h.block hy).2.2] at hv
    obtain ⟨x, hx, hxb, hxp⟩ := (h.orderly.mem_instrs hy v).1 hv
    have hi : ∃ i, s.graph.instr? v = some i ∧ i.block = b := by
      rcases x with ⟨id, ty, name, origin, block, kind⟩
      cases kind with
      | phi q => cases hxp
      | instr i => exact ⟨⟨b, ty, i⟩, Graph.instr?_eq_some.2 ⟨_, hx, hxb, rfl, rfl⟩, rfl⟩
    obtain ⟨i, hi, hib⟩ := hi
    rw [h.instr] at hi
    obtain ⟨j, hj, rfl⟩ := Option.map_eq_some_iff.1 hi
    have hr := Roles.instr?_eq_some.1 hj
    rw [show j.block = b from hib] at hr
    exact ⟨_, _, hr⟩
  · rintro ⟨ty, i, hr⟩
    have hi := h.instr v
    rw [Roles.instr?_eq_some (i := ⟨b, ty, i⟩).2 hr, Option.map_some] at hi
    obtain ⟨x, hx, hxb, -, hxk⟩ := Graph.instr?_eq_some.1 hi
    obtain ⟨y, hy⟩ := h.orderly.owner_known hx hxb
    change s.graph.block? b = some y at hy
    rw [← (h.block hy).2.2]
    refine (h.orderly.mem_instrs hy v).2 ⟨x, hx, hxb, ?_⟩
    unfold Value.isPhi
    rw [hxk]

theorem code_index_lt (h : Built p s) {v : ValueId} {b : BlockId} (hv : v ∈ p.code b) :
    v.index < s.graph.values.size := by
  obtain ⟨ty, i, hr⟩ := h.mem_code.1 hv
  exact h.drawn.covers.known hr

/-! ## 4. Meanings and types -/

/-- **What a meaning of the plan has to satisfy.** -/
theorem models (h : Built p s) {T : Type} {m : Meaning T} (hentry : m.entry = Plan.entry)
    (hedge : ∀ {q c}, m.edge q c ↔ p.Edge q c)
    (hstart : ∀ {x d}, variableById? s.reaching.vars x = some d → m.store [] x = m.undef d.ty)
    (hstore : ∀ {b π} x, m.Path (b :: π) → m.store (b :: π) x = m.content p.writes b π x)
    (hphi : ∀ {v b x}, p.roles v = some (.phi b x) → m.IsPhi v b x)
    (hcode : ∀ {v b ty i}, p.roles v = some (.code b ty i) → m.home v = b) :
    Models p.toDraft s m where
  fits :=
    { entry := hentry.trans h.entry.symm
      edge := fun hq => hedge.2 (h.mem_preds.1 hq)
      closed := fun _ he => h.mem_preds.2 (hedge.1 he)
      no_entry := fun he => h.wired.no_entry (hentry ▸ hedge.1 he)
      start := hstart
      frozen := fun _ _ x hπ => hstore x hπ }
  phi := hphi
  code := hcode

end Built

/-- The meaning in which everything holds its type. -/
def Plan.types (p : Plan) (vars : List Variable) : Meaning Ty where
  entry := Plan.entry
  edge := p.Edge
  home := p.homeOf Plan.entry
  val := fun v _ => p.roles.typeOf vars (.value v)
  lit := Literal.ty
  undef := id
  store := fun _ x => declaredType vars x
  val_away := fun _ => rfl

namespace Built

variable {p : Plan} {s : Tracked}

theorem mean_types (vars : List Variable) (o : Operand) (π : List BlockId) :
    (p.types vars).mean o π = p.roles.typeOf vars o := by
  cases o <;> rfl

theorem content_types (h : Built p s) (b : BlockId) (π : List BlockId) (x : VarId) :
    (p.types s.reaching.vars).content p.writes b π x = declaredType s.reaching.vars x := by
  unfold Meaning.content
  cases hw : p.writes b x with
  | none => rfl
  | some o =>
    obtain ⟨d, hd, ht⟩ := h.typed hw
    show (p.types s.reaching.vars).mean o (b :: π) = _
    rw [mean_types, ht, declaredType_of hd]

/-- **Types are a meaning of every plan.** -/
theorem models_types (h : Built p s) : Models p.toDraft s (p.types s.reaching.vars) := by
  refine h.models rfl Iff.rfl (fun {x d} hd => ?_) (fun {b π} x _ => ?_) (fun {v b x} hv => ?_)
    fun {v b ty i} hv => Draft.homeOf_code hv _
  · exact declaredType_of hd
  · exact (h.content_types b π x).symm
  · refine ⟨Draft.homeOf_phi hv _, fun π _ => ?_⟩
    exact Roles.typeOf_value hv _

/-- **What a variable holds is of its type**, wherever control can be. -/
theorem typeOf_read (h : Built p s) {b : BlockId} (hb : p.Reached b) {x : VarId} {d : Variable}
    (hd : variableById? s.reaching.vars x = some d) {o : Operand}
    (ho : ∀ {T : Type} {m : Meaning T}, Models p.toDraft s m →
      ∀ π, m.Path (b :: π) → m.mean o (b :: π) = m.content p.writes b π x) :
    p.roles.typeOf s.reaching.vars o = d.ty := by
  obtain ⟨π, hπ⟩ := hb
  have := ho h.models_types π hπ
  rw [mean_types, h.content_types, declaredType_of hd] at this
  exact this

/-- An attached operand has the type that its role tells. -/
theorem ends_operandType (h : Built p s) {R : Fault → Prop} {o : Operand}
    (ho : s.graph.Anchors o) {Q : Ty → Graph → Prop}
    (hQ : Q (p.roles.typeOf s.reaching.vars o) s.graph) :
    Ends (Edit.operandType o) s.graph R Q := by
  unfold Edit.operandType
  cases o with
  | lit c => exact hQ
  | undef ty => exact hQ
  | value v =>
    rcases Graph.attached_iff.1 (ho v rfl) with ⟨q, hq⟩ | ⟨i, hi⟩
    · obtain ⟨z, hz, -, ht, -⟩ := Graph.phi?_eq_some.1 hq
      obtain ⟨d, hd, hdt⟩ := h.drawn.sane.declared hq
      rw [Ends.bind_iff, Edit.ends_value hz]
      rw [Roles.typeOf_value (h.drawn.covers.phi hq)] at hQ
      change Q (declaredType s.reaching.vars q.var) s.graph at hQ
      rw [declaredType_of hd, hdt, ← ht] at hQ
      exact hQ
    · obtain ⟨z, hz, -, ht, -⟩ := Graph.instr?_eq_some.1 hi
      rw [h.instr] at hi
      obtain ⟨j, hj, rfl⟩ := Option.map_eq_some_iff.1 hi
      rw [Ends.bind_iff, Edit.ends_value hz]
      rw [Roles.typeOf_value (Roles.instr?_eq_some.1 hj)] at hQ
      rw [ht]
      exact hQ

end Built

end BitFlow
