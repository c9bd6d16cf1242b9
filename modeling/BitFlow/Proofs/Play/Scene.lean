import BitFlow.Proofs.Play.Basic
import BitFlow.Proofs.World.Tape

/-!
# The play of a plan

A plan is carried out along a path block by block: the phis of a block hold what their variables
held when it was entered, its code is performed in order, and then its variables are written. That
gives a play of every plan to which a graph is built.

Main definition: `Built.play`.
-/

namespace BitFlow

/-! ## 1. Scenes -/

/-- What has been reached at the end of a path: the tape, and what the variables hold. -/
structure Scene where
  tape : Tape
  store : Store

namespace Plan

variable (p : Plan) (w : World) (vars : List Variable)

/-- What values hold when `b` is entered. -/
def entering (b : BlockId) (s : Scene) : ValueId → Literal := fun v =>
  match p.roles v with
  | some (.phi c x) => if c = b then s.store x else s.tape.vals v
  | _ => s.tape.vals v

/-- The block `b` from its entry to its end. -/
def visit (b : BlockId) (s : Scene) : Scene :=
  let t := w.performAll p.roles.instr? ⟨p.entering b s, s.tape.trace⟩ (p.code b)
  ⟨t, fun x =>
    match p.writes b x with
    | some o => w.operand t.vals o
    | none => s.store x⟩

/-- **What has been reached at the end of a path.** -/
def scene : List BlockId → Scene
  | [] => ⟨⟨fun v => w.undef (p.roles.typeOf vars (.value v)), []⟩,
      fun x => w.undef (declaredType vars x)⟩
  | b :: π => p.visit w b (scene π)

end Plan

namespace Built

variable {p : Plan} {s : Tracked} {w : World} {b : BlockId} {v : ValueId} {sc : Scene}

/-- The code of a plan is in order. -/
theorem inOrder (h : Built p s) (b : BlockId) : World.InOrder p.roles.instr? (p.code b) :=
  ⟨h.ordered b, fun hi ho hu => (h.operands (Roles.instr?_eq_some.1 hi) _ ho).1 _ hu⟩

/-- What belongs to another block keeps its content. -/
theorem vals_visit (h : Built p s) (hv : p.homeOf Plan.entry v ≠ b) :
    (p.visit w b sc).tape.vals v = sc.tape.vals v := by
  have hcode : v ∉ p.code b := fun hm => by
    obtain ⟨ty, i, hi⟩ := h.mem_code.1 hm
    exact hv (Draft.homeOf_code hi _)
  refine (World.vals_performAll hcode).trans ?_
  show p.entering b sc v = _
  unfold Plan.entering
  split
  · rename_i c x hr
    rw [if_neg fun e => hv ((Draft.homeOf_phi hr _).trans e)]
  · rfl

/-- The phis of a block hold what their variables held when it was entered. -/
theorem phi_visit (h : Built p s) {x : VarId} (hv : p.roles v = some (.phi b x)) :
    (p.visit w b sc).tape.vals v = sc.store x := by
  have hcode : v ∉ p.code b := fun hm => by
    obtain ⟨ty, i, hi⟩ := h.mem_code.1 hm
    cases hv.symm.trans hi
  refine (World.vals_performAll hcode).trans ?_
  show p.entering b sc v = _
  unfold Plan.entering
  rw [hv]
  exact if_pos rfl

/-! ## 2. Types -/

/-- What values and variables hold is of their types. -/
structure Fitting (p : Plan) (vars : List Variable) (vals : ValueId → Literal) (store : Store) :
    Prop where
  vals : ∀ {v r}, p.roles v = some r → (vals v).ty = r.ty vars
  store : ∀ x, (store x).ty = declaredType vars x

theorem ty_operand {vars : List Variable} {vals : ValueId → Literal}
    (hv : ∀ {v r}, p.roles v = some r → (vals v).ty = r.ty vars) {o : Operand}
    (ho : p.roles.Knows o) : (w.operand vals o).ty = p.roles.typeOf vars o := by
  cases o with
  | value v =>
    obtain ⟨r, hr⟩ := ho v rfl
    rw [Roles.typeOf_value hr]
    exact hv hr
  | lit c => rfl
  | undef ty => exact w.ty_undef ty

theorem ty_result (t : Tape) (i : OwnedInstr) : (w.result t i).ty = i.ty := by
  unfold World.result
  split
  · exact w.ty_input _ _ _
  · exact w.ty_apply _ _ _

/-- Code leaves values of their types. -/
theorem ty_performAll {vars : List Variable} {t : Tape} (vs : List ValueId)
    (ht : ∀ {v r}, p.roles v = some r → (t.vals v).ty = r.ty vars) {r : Role}
    (hr : p.roles v = some r) : ((w.performAll p.roles.instr? t vs).vals v).ty = r.ty vars := by
  induction vs generalizing t with
  | nil => exact ht hr
  | cons u vs ih =>
    refine ih fun {v' r'} hr' => ?_
    by_cases e : v' = u
    · subst e
      cases hi : p.roles.instr? v' with
      | none =>
        unfold World.perform
        rw [hi]
        exact ht hr'
      | some i =>
        rw [World.perform_of_code hi]
        show (Function.update t.vals v' (w.result t i) v').ty = _
        rw [Function.update_self, ty_result]
        cases (Roles.instr?_eq_some.1 hi).symm.trans hr'
        rfl
    · rw [World.vals_perform_of_ne e]
      exact ht hr'

/-- **What values and variables hold along a path is of their types.** -/
theorem fitting (h : Built p s) (w : World) (π : List BlockId) :
    Fitting p s.reaching.vars (p.scene w s.reaching.vars π).tape.vals
      (p.scene w s.reaching.vars π).store := by
  induction π with
  | nil =>
    refine ⟨fun {v r} hr => ?_, fun x => w.ty_undef _⟩
    show (w.undef _).ty = _
    rw [w.ty_undef, Roles.typeOf_value hr]
  | cons b π ih =>
    have hvals : ∀ {v r}, p.roles v = some r →
        ((p.scene w s.reaching.vars (b :: π)).tape.vals v).ty = r.ty s.reaching.vars := by
      refine fun {v r} hr => ty_performAll _ (fun {v' r'} hr' => ?_) hr
      show (p.entering b _ v').ty = _
      unfold Plan.entering
      rw [hr']
      cases r' with
      | phi c x =>
        dsimp only
        split
        · exact ih.store x
        · exact ih.vals hr'
      | code c ty i => exact ih.vals hr'
    refine ⟨hvals, fun x => ?_⟩
    show (match p.writes b x with
      | some o => w.operand _ o
      | none => _).ty = _
    cases hw : p.writes b x with
    | none => exact ih.store x
    | some o =>
      obtain ⟨d, hd, ht⟩ := h.typed hw
      rw [declaredType_of hd, ← ht]
      exact ty_operand hvals (h.roles_knows (h.drawn.writes_known hw))

/-! ## 3. The play -/

/-- What values and variables hold when the plan is carried out. -/
def meaning (h : Built p s) (w : World) : Meaning Literal where
  entry := Plan.entry
  edge := p.Edge
  home := p.homeOf Plan.entry
  val := fun v π => (p.scene w s.reaching.vars π).tape.vals v
  lit := id
  undef := w.undef
  store := fun π => (p.scene w s.reaching.vars π).store
  val_away := fun hv => h.vals_visit hv

theorem mean_meaning (h : Built p s) (o : Operand) (π : List BlockId) :
    (h.meaning w).mean o π = w.operand (p.scene w s.reaching.vars π).tape.vals o := by
  cases o <;> rfl

theorem events_meaning (h : Built p s) (π : List BlockId) (vs : List ValueId) :
    p.roles.events (h.meaning w) π vs =
      w.events p.roles.instr? (p.scene w s.reaching.vars π).tape.vals vs := by
  unfold Roles.events World.events
  congr 1
  funext v
  unfold Roles.event Roles.instr? World.eventsOf
  cases hr : p.roles v with
  | none => rfl
  | some r =>
    cases r with
    | phi b x => rfl
    | code b ty i =>
      have hargs : (i.operands.map fun o => (h.meaning w).mean o π) =
          i.operands.map (w.operand (p.scene w s.reaching.vars π).tape.vals) :=
        List.map_congr_left fun o _ => h.mean_meaning o π
      simp only [Option.toList_some, List.flatMap_singleton, hargs]
      rfl

/-- What an instruction holds at the end of its block, told by what has been reached before it. -/
theorem val_code (h : Built p s) {π : List BlockId} {pre post : List ValueId}
    (hc : p.code b = pre ++ v :: post) {ty : Ty} {i : Instr}
    (hv : p.roles v = some (.code b ty i)) :
    ∃ t : Tape, (h.meaning w).val v (b :: π) = w.result t ⟨b, ty, i⟩ ∧
      (i.operands.map (w.operand t.vals) =
        i.operands.map fun o => (h.meaning w).mean o (b :: π)) ∧
      t.trace = (p.scene w s.reaching.vars π).tape.trace ++
        p.roles.events (h.meaning w) (b :: π) pre := by
  have horder := h.inOrder b
  rw [hc] at horder
  have hi : p.roles.instr? v = some ⟨b, ty, i⟩ := Roles.instr?_eq_some.2 hv
  have hscene : (p.scene w s.reaching.vars (b :: π)).tape =
      w.performAll p.roles.instr? ⟨p.entering b (p.scene w s.reaching.vars π),
        (p.scene w s.reaching.vars π).tape.trace⟩ (pre ++ v :: post) := by
    rw [← hc]
    rfl
  refine ⟨w.performAll p.roles.instr? ⟨p.entering b (p.scene w s.reaching.vars π),
    (p.scene w s.reaching.vars π).tape.trace⟩ pre, ?_, ?_, ?_⟩
  · show (p.scene w s.reaching.vars (b :: π)).tape.vals v = _
    rw [hscene]
    exact horder.vals hi
  · refine List.map_congr_left fun o ho => ?_
    rw [h.mean_meaning, hscene]
    exact (horder.operand hi ho).symm
  · rw [h.events_meaning, hscene]
    exact World.trace_performAll horder

theorem code_split (h : Built p s) {ty : Ty} {i : Instr} (hv : p.roles v = some (.code b ty i)) :
    ∃ pre post, p.code b = pre ++ v :: post :=
  List.append_of_mem (h.mem_code.2 ⟨ty, i, hv⟩)

/-- What an operator computes, for an instruction that does not read a port. -/
theorem val_apply (h : Built p s) {π : List BlockId} {ty : Ty} {i : Instr}
    (hv : p.roles v = some (.code b ty i)) (hu : ∀ q, i.portUse ≠ some ⟨q, .read⟩) :
    (h.meaning w).val v (b :: π) =
      w.apply i.op (i.operands.map fun o => (h.meaning w).mean o (b :: π)) ty := by
  obtain ⟨pre, post, hc⟩ := h.code_split hv
  obtain ⟨t, hval, hargs, -⟩ := h.val_code (w := w) (π := π) hc hv
  rw [hval, ← hargs]
  unfold World.result
  split
  · rename_i q hq
    exact absurd hq (hu q)
  · rfl

/-- **The play of a plan.** -/
def play (h : Built p s) (w : World) : Play w s.reaching.vars where
  plan := p
  meaning := h.meaning w
  hist := fun π => (p.scene w s.reaching.vars π).tape.trace
  entry := rfl
  edge := Iff.rfl
  wired := h.wired
  runs :=
    { lit := fun _ => rfl
      undef := fun _ => rfl
      typed := fun hv π => (h.fitting w π).vals hv
      store := fun π x => (h.fitting w π).store x
      code := fun hv hu π _ => h.val_apply hv fun q e => by
        rw [hu] at e
        cases e }
  store := fun {b π} x _ => by
    show (match p.writes b x with
      | some o => w.operand _ o
      | none => _) = _
    unfold Meaning.content
    cases hw : p.writes b x with
    | none => rfl
    | some o => exact (h.mean_meaning o (b :: π)).symm
  hist_cons := fun {b π} _ => by
    have horder := h.inOrder b
    rw [← List.append_nil (p.code b)] at horder
    rw [h.events_meaning]
    refine (World.trace_performAll horder).trans ?_
    rw [List.append_nil]
    rfl
  reads := fun {b π pre v post ty i q} _ hc hv hu => by
    obtain ⟨t, hval, -, htrace⟩ := h.val_code (w := w) (π := π) hc hv
    rw [hval]
    unfold World.result
    rw [show (⟨b, ty, i⟩ : OwnedInstr).instr.portUse = some ⟨q, .read⟩ from hu, htrace]
  writes := fun _ hv hu => h.val_apply hv fun q e => by
    rw [hu] at e
    cases e

/-- The play of a plan is a meaning of it. -/
theorem models_play (h : Built p s) (w : World) : Models p.toDraft s (h.play w).meaning := by
  refine h.models rfl Iff.rfl (fun {x d} hd => ?_) (fun {b π} x hπ => (h.play w).store x hπ)
    (fun {v b x} hv => ⟨Draft.homeOf_phi hv _, fun π _ => h.phi_visit hv⟩)
    fun hv => Draft.homeOf_code hv _
  show w.undef (declaredType s.reaching.vars x) = _
  rw [declaredType_of hd]
  rfl

end Built

end BitFlow
