import BitFlow.Proofs.Bench
import BitFlow.Proofs.Plan.Grow
import BitFlow.Proofs.World.Basic

/-!
# What operands denote

A meaning in a world runs the plan: literals hold themselves, instructions hold what the world
computes from their operands, and everything is of its type. An operand denotes a function of the
store if, in every such meaning, it holds what the function gives for the store at hand.

Expressions are lowered by quiet steps: code is added at the end of one block, and none of it
touches a port. What an operand denotes it denotes after quiet steps as well.

Main statements: `Quiet.trans`, `Denotes.quiet`.
-/

namespace BitFlow

/-! ## 1. Running a plan -/

/-- **The meaning runs the plan in the world.** -/
structure Runs (w : World) (vars : List Variable) (R : Roles) (m : Meaning Literal) : Prop where
  lit : ∀ c, m.lit c = c
  undef : ∀ ty, m.undef ty = w.undef ty
  typed : ∀ {v r}, R v = some r → ∀ π, (m.val v π).ty = r.ty vars
  store : ∀ π x, (m.store π x).ty = declaredType vars x
  code : ∀ {v b ty i}, R v = some (.code b ty i) → i.portUse = none → ∀ π, m.Path (b :: π) →
    m.val v (b :: π) = w.apply i.op (i.operands.map fun o => m.mean o (b :: π)) ty

section Runs

variable {w : World} {vars : List Variable} {R R' : Roles} {m : Meaning Literal}

theorem Runs.mono (h : Runs w vars R' m) (hk : ∀ {v r}, R v = some r → R' v = some r) :
    Runs w vars R m :=
  ⟨h.lit, h.undef, fun hv => h.typed (hk hv), h.store, fun hv => h.code (hk hv)⟩

/-- What an operand holds is of its type. -/
theorem Runs.ty_mean (h : Runs w vars R m) {o : Operand} (ho : R.Knows o) (π : List BlockId) :
    (m.mean o π).ty = R.typeOf vars o := by
  cases o with
  | lit c =>
    show (m.lit c).ty = c.ty
    rw [h.lit]
  | undef ty =>
    show (m.undef ty).ty = ty
    rw [h.undef, w.ty_undef]
  | value v =>
    obtain ⟨r, hr⟩ := ho v rfl
    rw [Roles.typeOf_value hr]
    exact h.typed hr π

end Runs

/-- The operand is of type `ty`, and in `b` it holds what `f` gives for the store there. -/
structure Denotes (w : World) (b : BlockId) (p : Plan) (s : Bench) (o : Operand) (ty : Ty)
    (f : Store → Literal) : Prop where
  ty : p.roles.typeOf s.reaching.vars o = ty
  mean : ∀ {m : Meaning Literal}, Models p.toDraft s.tracked m →
    Runs w s.reaching.vars p.roles m → ∀ π, m.Path (b :: π) →
      m.mean o (b :: π) = f fun x => m.content p.writes b π x

/-! ## 2. Quiet steps -/

/-- The value is an instruction that touches no port. -/
def Roles.Silent (R : Roles) (v : ValueId) : Prop :=
  ∃ b ty i, R v = some (.code b ty i) ∧ i.portUse = none

/-- The bench is built to the plan, and its cursor is at the end of `b`. -/
structure Ready (b : BlockId) (p : Plan) (s : Bench) : Prop where
  built : Built p s.tracked
  cursor : s.cursor = ⟨b, none⟩
  here : b.index < p.count

/-- **Code was added at the end of `b` that touches no port.** -/
structure Quiet (b : BlockId) (p : Plan) (s : Bench) (p' : Plan) (s' : Bench) : Prop where
  built : Built p' s'.tracked
  later : Later p.toDraft s.tracked p'.toDraft s'.tracked
  cursor : s'.cursor = s.cursor
  limit : s'.literalLimit = s.literalLimit
  vars : s'.reaching.vars = s.reaching.vars
  anchors : ∀ {o}, s.graph.Anchors o → s'.graph.Anchors o
  plan : ∃ R new, p' = p.extend b R new ∧ ∀ v ∈ new, R.Silent v

section Quiet

variable {w : World} {b : BlockId} {p p' p'' : Plan} {s s' s'' : Bench}

theorem Quiet.refl (h : Built p s.tracked) : Quiet b p s p s := by
  refine ⟨h, .refl _ _, rfl, rfl, rfl, id, p.roles, [], ?_, fun v hv => by cases hv⟩
  rw [Plan.extend_nil]

theorem Quiet.trans (h : Quiet b p s p' s') (h' : Quiet b p' s' p'' s'') : Quiet b p s p'' s'' := by
  refine ⟨h'.built, h.later.trans h'.later, h'.cursor.trans h.cursor, h'.limit.trans h.limit,
    h'.vars.trans h.vars, fun ho => h'.anchors (h.anchors ho), ?_⟩
  obtain ⟨R, new, rfl, hs⟩ := h.plan
  obtain ⟨R', new', rfl, hs'⟩ := h'.plan
  refine ⟨R', new ++ new', p.extend_extend b R R' new new', fun v hv => ?_⟩
  rcases List.mem_append.1 hv with hv | hv
  · obtain ⟨c, ty, i, hi, hn⟩ := hs v hv
    exact ⟨c, ty, i, h'.later.roles hi, hn⟩
  · exact hs' v hv

theorem Quiet.writes (h : Quiet b p s p' s') : p'.writes = p.writes := by
  obtain ⟨R, new, rfl, -⟩ := h.plan
  rfl

theorem Quiet.count (h : Quiet b p s p' s') : p'.count = p.count := by
  obtain ⟨R, new, rfl, -⟩ := h.plan
  rfl

theorem Quiet.reached (h : Quiet b p s p' s') {c : BlockId} : p'.Reached c ↔ p.Reached c := by
  obtain ⟨R, new, rfl, -⟩ := h.plan
  rfl

theorem Quiet.ready (h : Quiet b p s p' s') (hr : Ready b p s) : Ready b p' s' :=
  ⟨h.built, h.cursor.trans hr.cursor, by rw [h.count]; exact hr.here⟩

theorem Quiet.offers (h : Quiet b p s p' s') {c : BlockId} {o : Operand}
    (ho : Offers p s.tracked c o) : Offers p' s'.tracked c o := ho.later h.later h.anchors

/-- **What an operand denotes it still denotes after quiet steps.** -/
theorem Denotes.quiet {o : Operand} {ty : Ty} {f : Store → Literal} (hd : Denotes w b p s o ty f)
    (hb : Built p s.tracked) (ho : s.graph.Anchors o) (h : Quiet b p s p' s') :
    Denotes w b p' s' o ty f := by
  refine ⟨?_, fun {m} hm hr π hπ => ?_⟩
  · rw [h.vars, Roles.typeOf_keep h.later.roles _ (hb.roles_knows ho.knows)]
    exact hd.ty
  · rw [h.vars] at hr
    rw [h.writes]
    exact hd.mean (h.later.models hm) (hr.mono h.later.roles) π hπ

/-- What an operand denotes is of its type. -/
theorem Denotes.ty_mean {o : Operand} {ty : Ty} {f : Store → Literal}
    (hd : Denotes w b p s o ty f) (hb : Built p s.tracked) (ho : s.graph.Anchors o)
    {m : Meaning Literal} (hr : Runs w s.reaching.vars p.roles m) (π : List BlockId) :
    (m.mean o π).ty = ty := by
  rw [hr.ty_mean (hb.roles_knows ho.knows), hd.ty]

end Quiet

theorem Denotes.lit {w : World} {b : BlockId} {p : Plan} {s : Bench} (c : Literal) :
    Denotes w b p s (.lit c) c.ty fun _ => c :=
  ⟨rfl, fun _ hr _ _ => hr.lit c⟩

/-- The store at the end of `b` is of the declared types. -/
theorem Built.typed_content {w : World} {p : Plan} {s : Tracked} (h : Built p s)
    {m : Meaning Literal} (hr : Runs w s.reaching.vars p.roles m) (b : BlockId)
    (π : List BlockId) : Store.Typed (fun x => m.content p.writes b π x) s.reaching.vars := by
  intro x d hd
  show (m.content p.writes b π x).ty = d.ty
  unfold Meaning.content
  cases hw : p.writes b x with
  | none => exact (hr.store π x).trans (declaredType_of hd)
  | some o =>
    obtain ⟨d', hd', ht⟩ := h.typed hw
    cases hd.symm.trans hd'
    exact (hr.ty_mean (h.roles_knows (h.drawn.writes_known hw)) _).trans ht

end BitFlow
