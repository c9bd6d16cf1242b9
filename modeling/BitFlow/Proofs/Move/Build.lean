import BitFlow.Proofs.Bench
import BitFlow.Proofs.Constant.Evaluate
import BitFlow.Proofs.Move.Basic
import BitFlow.Proofs.Reaching.Frame

/-!
# Expressions and writes are lowered by moves

Emitting operators, lowering expressions and writing variables are chains of moves. The types that
each instruction asks for have been checked, or brought about by a conversion, when it is put in.

Main statements: `Build.moves_lowerExpr`, `Build.moves_splice`.
-/

namespace BitFlow

/-! ## 1. Emitting operators -/

/-- An operand of type `ty` was emitted, by moves on the graph alone. -/
structure Emitted (p : Program) (g : Graph) (o : Operand) (ty : Ty) (g' : Graph) : Prop where
  moves : ∀ r, Moves p ⟨g, r⟩ ⟨g', r⟩
  keeps : g.KeepsTypes g'
  type : g'.typeOf? o = some ty

theorem Emitted.refl {p : Program} {g : Graph} {o : Operand} {ty : Ty}
    (h : g.typeOf? o = some ty) : Emitted p g o ty g := ⟨fun _ => .refl _, .refl _, h⟩

theorem Put.emitted {p : Program} {pt q : Pointed} {ty : Ty} {origin : Origin} {i : Instr}
    {v : ValueId} (h : Put pt ty origin i v q) (tys : List Ty)
    (types : i.operands.map pt.graph.typeOf? = tys.map some) (typed : i.Admits p tys ty) :
    Emitted p pt.graph (.value v) ty q.graph := by
  obtain ⟨y, hy⟩ := h.known
  obtain ⟨place, hg⟩ := h.graph
  rw [hg, h.name]
  refine ⟨fun r => Moves.single (.instr (s := ⟨pt.graph, r⟩) hy types typed place origin),
    pt.graph.keepsTypes_withInstr _ place ty origin i, ?_⟩
  rw [Graph.typeOf?_withInstr, if_pos rfl]

theorem Instr.Admits.of_op {p : Program} {op : Opcode} {os : List Operand} {tys : List Ty} {ty : Ty}
    (h : op.Admits tys ty) (hop : op ≠ .assign) : Instr.Admits p ⟨op, os, none⟩ tys ty where
  op := h
  port := fun hu => by cases hu
  assign := fun e => absurd e hop

theorem Applied.emitted {p : Program} {pt q : Pointed} {ty : Ty} {op : Opcode} {os : List Operand}
    {o : Operand} {tys : List Ty} (h : Applied pt ty op os o q)
    (types : os.map pt.graph.typeOf? = tys.map some) (admits : op.Admits tys ty)
    (yields : op.Yields ty) (hop : op ≠ .assign) : Emitted p pt.graph o ty q.graph := by
  cases h with
  | folded _ value => exact .refl (congrArg some (ty_of_fold op yields value))
  | put _ put => exact put.emitted _ types (.of_op admits hop)

namespace Emit

variable {p : Program} {pt q : Pointed} {a b c o : Operand} {ty : Ty}

theorem types_one {t : Ty} (ha : pt.graph.typeOf? a = some t) :
    [a].map pt.graph.typeOf? = [t].map some := congrArg (fun t => [t]) ha

theorem types_two {t u : Ty} (ha : pt.graph.typeOf? a = some t) (hb : pt.graph.typeOf? b = some u) :
    [a, b].map pt.graph.typeOf? = [t, u].map some := by
  rw [List.map_cons, types_one hb, ha]
  rfl

theorem Converted.emitted (h : Converted pt a ty o q) : Emitted p pt.graph o ty q.graph := by
  cases h with
  | same type => exact .refl type
  | applied type _ applied =>
    exact applied.emitted (types_one type) trivial trivial fun e => by cases e

theorem Stored.emitted (h : Stored pt a ty o q) : Emitted p pt.graph o ty q.graph := by
  cases h with
  | literal => exact .refl (congrArg some (Literal.ty_resize _ _))
  | converted converted => exact converted.emitted

theorem Sliced.emitted {msb lsb : Nat} (h : Sliced pt a msb lsb o q) :
    Emitted p pt.graph o (.unsigned (msb - lsb + 1)) q.graph := by
  cases h with
  | all type => exact .refl type
  | applied type le lt _ applied =>
    exact applied.emitted (types_one type) ⟨le, lt, rfl⟩ trivial fun e => by cases e

theorem Joined.emitted {os : List Operand} (h : Joined pt os o q) :
    ∃ ty, Emitted p pt.graph o ty q.graph := by
  cases h with
  | single _ type => exact ⟨_, .refl type⟩
  | @applied tys _ _ nonempty types _ applied =>
    refine ⟨_, applied.emitted types ⟨?_, ?_⟩ trivial fun e => by cases e⟩
    · rintro rfl
      exact nonempty (List.map_eq_nil_iff.1 types)
    · rw [joinedWidth_eq]

/-- After a conversion both operands are of one type. -/
theorem Coerced.emitted {r : Operand × Operand} (h : Coerced pt a b r q) :
    ∃ ty, Emitted p pt.graph r.1 ty q.graph ∧ q.graph.typeOf? r.2 = some ty := by
  cases h with
  | same left right => exact ⟨_, .refl left, right⟩
  | right left => exact ⟨_, .refl left, congrArg some (Literal.ty_resize _ _)⟩
  | left right => exact ⟨_, .refl (congrArg some (Literal.ty_resize _ _)), right⟩
  | cast left right _ _ _ _ applied =>
    have he := applied.emitted (p := p) (types_one right) trivial trivial fun e => by cases e
    exact ⟨_, ⟨he.moves, he.keeps, he.keeps _ _ left⟩, he.type⟩

theorem Tested.emitted (h : Tested pt a o q) : Emitted p pt.graph o .bit q.graph := by
  cases h with
  | same type => exact .refl type
  | applied type _ applied =>
    exact applied.emitted (types_two type rfl) ⟨rfl, rfl⟩ rfl fun e => by cases e

theorem Selected.emitted (h : Selected pt c a b o q) : ∃ ty, Emitted p pt.graph o ty q.graph := by
  cases h with
  | @decided k ty _ _ left right =>
    refine ⟨ty, .refl ?_⟩
    split
    · exact left
    · exact right
  | @put ty v _ _ bit left right put =>
    refine ⟨ty, put.emitted [.bit, ty, ty] ?_ (.of_op ⟨rfl, rfl, rfl⟩ fun e => by cases e)⟩
    rw [List.map_cons, types_two left right, bit]
    rfl

theorem Indexed.emitted {k : Operand} (h : Indexed pt a k o q) {ta tk : Ty}
    (ha : pt.graph.typeOf? a = some ta) (hk : pt.graph.typeOf? k = some tk) :
    ∃ ty, Emitted p pt.graph o ty q.graph := by
  cases h with
  | literal _ sliced => exact ⟨_, sliced.emitted⟩
  | applied _ applied =>
    exact ⟨_, applied.emitted (types_two ha hk) rfl rfl fun e => by cases e⟩

end Emit

/-! ## 2. What is emitted is attached -/

theorem Put.anchors {pt q : Pointed} {ty : Ty} {origin : Origin} {i : Instr} {v : ValueId}
    (h : Put pt ty origin i v q) : q.graph.Anchors (.value v) := by
  intro w hw
  cases hw
  obtain ⟨place, hg⟩ := h.graph
  rw [hg]
  exact (pt.graph.attached_withInstr _ place ty origin i v).2 (.inl h.name)

/-- An operand that is held while an instruction is put in. -/
theorem Put.keepsAnchors {pt q : Pointed} {ty : Ty} {origin : Origin} {i : Instr} {v : ValueId}
    (h : Put pt ty origin i v q) {a : Operand} (ha : pt.graph.Anchors a) : q.graph.Anchors a := by
  intro w hw
  obtain ⟨place, hg⟩ := h.graph
  rw [hg]
  exact (pt.graph.attached_withInstr _ place ty origin i w).2 (.inr (ha w hw))

namespace Applied

variable {pt q : Pointed} {ty : Ty} {op : Opcode} {os : List Operand} {a o : Operand}

theorem anchors (h : Applied pt ty op os o q) : q.graph.Anchors o := by
  cases h with
  | folded _ _ => exact Graph.anchors_lit _ _
  | put _ put => exact put.anchors

/-- An operand that is held while an operator is applied. -/
theorem keepsAnchors (h : Applied pt ty op os o q) (ha : pt.graph.Anchors a) :
    q.graph.Anchors a := by
  cases h with
  | folded _ _ => exact ha
  | put _ put => exact put.keepsAnchors ha

end Applied

namespace Emit

variable {pt q : Pointed} {a b c k o : Operand}

theorem Converted.anchors {ty : Ty} (h : Converted pt a ty o q) (ha : pt.graph.Anchors a) :
    q.graph.Anchors o := by
  cases h with
  | same _ => exact ha
  | applied _ _ applied => exact applied.anchors

theorem Stored.anchors {ty : Ty} (h : Stored pt a ty o q) (ha : pt.graph.Anchors a) :
    q.graph.Anchors o := by
  cases h with
  | literal => exact Graph.anchors_lit _ _
  | converted converted => exact converted.anchors ha

theorem Sliced.anchors {msb lsb : Nat} (h : Sliced pt a msb lsb o q) (ha : pt.graph.Anchors a) :
    q.graph.Anchors o := by
  cases h with
  | all _ _ _ => exact ha
  | applied _ _ _ _ applied => exact applied.anchors

theorem Sliced.keepsAnchors {msb lsb : Nat} (h : Sliced pt a msb lsb o q)
    (hb : pt.graph.Anchors b) : q.graph.Anchors b := by
  cases h with
  | all _ _ _ => exact hb
  | applied _ _ _ _ applied => exact applied.keepsAnchors hb

theorem Joined.anchors {os : List Operand} (h : Joined pt os o q)
    (hos : ∀ a ∈ os, pt.graph.Anchors a) : q.graph.Anchors o := by
  cases h with
  | single sole _ _ =>
    subst sole
    exact hos o List.mem_cons_self
  | applied _ _ _ applied => exact applied.anchors

end Emit

/-! ## 3. Expressions -/

namespace Build

variable {p : Program} {s : Bench} {α : Type}

/-- What is emitted at the cursor of a bench. -/
theorem moves_emit {x : Emit Operand}
    (h : Ends x ⟨s.graph, s.cursor⟩ (fun _ => True) fun o q =>
      ∃ ty, Emitted p s.graph o ty q.graph) :
    Ends (liftM x : Build Operand) s (fun _ => True) fun o t =>
      Moves p s.tracked t.tracked ∧ ∃ ty, t.graph.typeOf? o = some ty := by
  rw [ends_emit]
  exact h.mono fun o q ⟨ty, he⟩ => ⟨he.moves s.reaching, ty, he.type⟩

/-- **What lowering an expression leaves**: a chain of moves, and an operand that has a type. -/
def Supplies (p : Program) (s : Bench) (o : Operand) (t : Bench) : Prop :=
  Moves p s.tracked t.tracked ∧ ∃ ty, t.graph.typeOf? o = some ty

theorem moves_literal (c : Literal) (site : String) :
    Ends (literal c site) s (fun _ => True) (Supplies p s) := by
  unfold literal
  rw [Ends.bind_iff, Ends.get_iff]
  dsimp only
  split
  · exact ⟨.refl _, c.ty, rfl⟩
  · trivial

theorem moves_read (h : Idle s.tracked) (x : VarId) (b : BlockId) :
    Ends (liftM (Track.read x b) : Build Operand) s (fun _ => True) (Supplies p s) := by
  rw [ends_track]
  refine Ends.of_run fun o t run => ⟨.single (.read run), ?_⟩
  have hd := Track.didRead_of_run h.sane run
  exact ((hd.sane h.sane).anchors_reached hd.answer).typeOf?

/-- What is found is attached. -/
theorem anchors_read (h : Idle s.tracked) (x : VarId) (b : BlockId) :
    Ends (liftM (Track.read x b) : Build Operand) s (fun _ => True)
      fun o t => t.graph.Anchors o := by
  rw [ends_track]
  refine Ends.of_run fun o t run => ?_
  have hd := Track.didRead_of_run h.sane run
  exact (hd.sane h.sane).anchors_reached hd.answer

/-- What was there before a read is held. -/
theorem holds_read (h : Idle s.tracked) (x : VarId) (b : BlockId) :
    Ends (liftM (Track.read x b) : Build Operand) s (fun _ => True)
      fun _ t => s.graph.Holds t.graph := by
  rw [ends_track]
  exact Ends.of_run fun o t run => Track.holds_of_run h.sane.steady run

theorem moves_variableRead (h : Idle s.tracked) (x : VarId) (site : String) :
    Ends (variableRead x site) s (fun _ => True) (Supplies p s) := by
  unfold variableRead
  rw [Ends.bind_iff, ends_track]
  refine Track.ends_declaration (fun _ => trivial) fun d _ => ?_
  dsimp only
  split
  · rw [Ends.bind_iff]
    trivial
  · rw [Ends.bind_iff, Ends.get_iff]
    exact moves_read h x _

/-- Two operands brought to one type, and an operator that asks for that. -/
theorem moves_coerce {a b : Operand} {site : String} {f : Operand × Operand → Emit Operand}
    (hf : ∀ r pt ty, pt.graph.typeOf? r.1 = some ty → pt.graph.typeOf? r.2 = some ty →
      Ends (f r) pt (fun _ => True) fun o q => ∃ ty, Emitted p pt.graph o ty q.graph) :
    Ends (do
        let r ← (liftM (Emit.coerce a b site) : Build (Operand × Operand))
        liftM (f r)) s (fun _ => True) (Supplies p s) := by
  rw [Ends.bind_iff, ends_emit]
  refine Emit.ends_coerce.mono fun r q hr => ?_
  obtain ⟨ty, he, ht⟩ := hr.emitted (p := p)
  refine (moves_emit (p := p) (s := { s with graph := q.graph, cursor := q.cursor })
    (hf r _ ty he.type ht)).mono fun o t ho => ?_
  exact ⟨(he.moves s.reaching).trans ho.1, ho.2⟩

theorem emits_binary {op : Binary} {r : Operand × Operand} {pt : Pointed} {site : String} {ty : Ty}
    (h1 : pt.graph.typeOf? r.1 = some ty) (h2 : pt.graph.typeOf? r.2 = some ty) :
    Ends (Emit.binary (.binary op) r.1 r.2 site) pt (fun _ => True) fun o q =>
      ∃ ty, Emitted p pt.graph o ty q.graph := by
  refine Emit.ends_binary.mono fun o q ⟨ta, tb, ha, hb, _, happ⟩ => ?_
  cases ha.symm.trans h1
  cases hb.symm.trans h2
  exact ⟨_, happ.emitted (Emit.types_two ha hb) ⟨rfl, .inr rfl⟩ trivial fun e => by cases e⟩

theorem emits_compare {op : Relation} {r : Operand × Operand} {pt : Pointed} {site : String}
    {ty : Ty} (h1 : pt.graph.typeOf? r.1 = some ty) (h2 : pt.graph.typeOf? r.2 = some ty) :
    Ends (Emit.compare (.compare op) r.1 r.2 site) pt (fun _ => True) fun o q =>
      ∃ ty, Emitted p pt.graph o ty q.graph := by
  refine Emit.ends_compare.mono fun o q ⟨ta, tb, ha, hb, _, happ⟩ => ?_
  cases ha.symm.trans h1
  cases hb.symm.trans h2
  exact ⟨_, happ.emitted (Emit.types_two ha hb) ⟨rfl, rfl⟩ rfl fun e => by cases e⟩

mutual

/-- **An expression is lowered by moves.** -/
theorem moves_lowerExpr (e : Expr) {s : Bench} (h : Idle s.tracked) :
    Ends (lowerExpr e) s (fun _ => True) (Supplies p s) := by
  match e with
  | .lit c =>
    rw [lowerExpr_lit]
    exact moves_literal c _
  | .var x =>
    rw [lowerExpr_var]
    exact moves_variableRead h x _
  | .unary op arg =>
    rw [lowerExpr, Ends.bind_iff]
    refine (moves_lowerExpr arg h).mono fun a s₁ h₁ => ?_
    refine (moves_emit (p := p) (Emit.ends_unary.mono fun o q ⟨ty, ht, happ⟩ => ?_)).mono
      fun o s₂ h₂ => ⟨h₁.1.trans h₂.1, h₂.2⟩
    exact ⟨ty, happ.emitted (Emit.types_one ht) rfl trivial fun e => by cases e⟩
  | .binary op lhs rhs =>
    rw [lowerExpr, Ends.bind_iff]
    refine (moves_lowerExpr lhs h).mono fun a s₁ h₁ => ?_
    rw [Ends.bind_iff]
    refine (moves_lowerExpr rhs (h₁.1.idle h)).mono fun b s₂ h₂ => ?_
    unfold align
    split
    · rename_i hshift
      rw [Ends.bind_iff, Ends.pure_iff]
      refine (moves_emit (p := p) (Emit.ends_binary.mono fun o q ⟨ta, tb, ha, hb, _, happ⟩ =>
        ?_)).mono fun o s₃ h₃ => ⟨(h₁.1.trans h₂.1).trans h₃.1, h₃.2⟩
      exact ⟨ta, happ.emitted (Emit.types_two ha hb) ⟨rfl, .inl hshift⟩ trivial
        fun e => by cases e⟩
    · refine (moves_coerce (p := p) fun r pt ty h1 h2 => emits_binary h1 h2).mono
        fun o s₃ h₃ => ⟨(h₁.1.trans h₂.1).trans h₃.1, h₃.2⟩
  | .compare op lhs rhs =>
    rw [lowerExpr, Ends.bind_iff]
    refine (moves_lowerExpr lhs h).mono fun a s₁ h₁ => ?_
    rw [Ends.bind_iff]
    refine (moves_lowerExpr rhs (h₁.1.idle h)).mono fun b s₂ h₂ => ?_
    exact (moves_coerce (p := p) fun r pt ty h1 h2 => emits_compare h1 h2).mono
      fun o s₃ h₃ => ⟨(h₁.1.trans h₂.1).trans h₃.1, h₃.2⟩
  | .concat parts =>
    rw [lowerExpr, Ends.bind_iff]
    refine (moves_lowerExprs parts h).mono fun os s₁ h₁ => ?_
    exact (moves_emit (p := p) (Emit.ends_concat.mono fun o q ho => ho.emitted)).mono
      fun o s₂ h₂ => ⟨h₁.trans h₂.1, h₂.2⟩
  | .bit base pos =>
    rw [lowerExpr, Ends.bind_iff]
    refine ends_refuseArrayBase tolerates_all ?_
    rw [Ends.bind_iff]
    refine (moves_lowerExpr base h).mono fun a s₁ h₁ => ?_
    rw [Ends.bind_iff]
    refine (moves_lowerExpr pos (h₁.1.idle h)).mono fun k s₂ h₂ => ?_
    obtain ⟨ta, ha⟩ := h₁.2
    obtain ⟨tk, hk⟩ := h₂.2
    exact (moves_emit (p := p) (Emit.ends_index.mono fun o q ho =>
      ho.emitted (h₂.1.keepsTypes (h₁.1.idle h) _ _ ha) hk)).mono
      fun o s₃ h₃ => ⟨(h₁.1.trans h₂.1).trans h₃.1, h₃.2⟩
  | .range base msb lsb =>
    rw [lowerExpr, Ends.bind_iff]
    refine ends_refuseArrayBase tolerates_all ?_
    rw [Ends.bind_iff]
    refine (moves_lowerExpr base h).mono fun a s₁ h₁ => ?_
    rw [Ends.bind_iff]
    refine ends_bound tolerates_all fun hi _ => ?_
    rw [Ends.bind_iff]
    refine ends_bound tolerates_all fun lo _ => ?_
    exact (moves_emit (p := p) (Emit.ends_slice.mono fun o q ho => ⟨_, ho.emitted⟩)).mono
      fun o s₂ h₂ => ⟨h₁.1.trans h₂.1, h₂.2⟩
  | .ternary cond yes no =>
    rw [lowerExpr, Ends.bind_iff]
    refine (moves_lowerExpr cond h).mono fun c s₁ h₁ => ?_
    rw [Ends.bind_iff]
    refine (moves_emit (p := p) (Emit.ends_condition.mono fun o q ho => ⟨_, ho.emitted⟩)).mono
      fun c s₂ h₂ => ?_
    have w₂ := h₁.1.trans h₂.1
    rw [Ends.bind_iff]
    refine (moves_lowerExpr yes (w₂.idle h)).mono fun a s₃ h₃ => ?_
    have w₃ := w₂.trans h₃.1
    rw [Ends.bind_iff]
    refine (moves_lowerExpr no (w₃.idle h)).mono fun b s₄ h₄ => ?_
    exact (moves_coerce (p := p) fun r pt ty _ _ =>
      Emit.ends_select.mono fun o q ho => ho.emitted).mono
      fun o s₅ h₅ => ⟨(w₃.trans h₄.1).trans h₅.1, h₅.2⟩
  | .cast arg ty =>
    rw [lowerExpr, Ends.bind_iff]
    refine (moves_lowerExpr arg h).mono fun a s₁ h₁ => ?_
    exact (moves_emit (p := p) (Emit.ends_cast.mono fun o q ho => ⟨_, ho.emitted⟩)).mono
      fun o s₂ h₂ => ⟨h₁.1.trans h₂.1, h₂.2⟩

theorem moves_lowerExprs (es : List Expr) {s : Bench} (h : Idle s.tracked) :
    Ends (lowerExprs es) s (fun _ => True) fun _ t =>
      Moves p s.tracked t.tracked := by
  match es with
  | [] =>
    rw [lowerExprs]
    exact .refl _
  | e :: es =>
    rw [lowerExprs, Ends.bind_iff]
    refine (moves_lowerExpr e h).mono fun o s₁ h₁ => ?_
    rw [Ends.bind_iff]
    exact (moves_lowerExprs es (h₁.1.idle h)).mono fun os s₂ h₂ => h₁.1.trans h₂

end

/-! ## 4. Writes -/

/-- An operand stored at the type of its place. -/
theorem moves_coerceTo {a : Operand} {ty : Ty} {site : String} :
    Ends (liftM (Emit.coerceTo a ty site) : Build Operand) s (fun _ => True) fun o t =>
      Moves p s.tracked t.tracked ∧ t.graph.typeOf? o = some ty ∧
        (s.graph.Anchors a → t.graph.Anchors o) := by
  rw [ends_emit]
  refine Emit.ends_coerceTo.mono fun o q ho => ?_
  have he := ho.emitted (p := p)
  exact ⟨he.moves s.reaching, he.type, ho.anchors⟩

/-- The slices of an attached operand are attached, and so is what is held meanwhile. -/
theorem moves_sliceIf (c : Prop) [Decidable c] {a : Operand} {msb lsb : Nat} {site : String}
    (ha : s.graph.Anchors a) :
    Ends (sliceIf c a msb lsb site) s (fun _ => True) fun os t =>
      Moves p s.tracked t.tracked ∧ (∀ o ∈ os, t.graph.Anchors o) ∧
        ∀ b, s.graph.Anchors b → t.graph.Anchors b := by
  unfold sliceIf
  split
  · rw [Ends.bind_iff, ends_emit]
    refine Emit.ends_slice.mono fun o q ho => ?_
    refine ⟨(ho.emitted (p := p)).moves s.reaching, fun o' ho' => ?_, fun b => ho.keepsAnchors⟩
    rw [List.mem_singleton.1 ho']
    exact ho.anchors ha
  · exact ⟨.refl _, fun _ ho => absurd ho List.not_mem_nil, fun _ hb => hb⟩

/-- **The content of a whole variable with one part replaced** is put together by moves. -/
theorem moves_splice (h : Idle s.tracked) {d : Variable} {r : BitRange} {b : BlockId} {o : Operand}
    {site : String} (ho : s.graph.Anchors o) :
    Ends (splice d r b o site) s (fun _ => True) fun a t =>
      Moves p s.tracked t.tracked ∧ t.graph.typeOf? a = some d.ty ∧ t.graph.Anchors a := by
  unfold splice
  dsimp only
  by_cases harr : d.isArray = true
  · rw [if_pos harr]
    trivial
  rw [if_neg harr]
  by_cases hw : ¬ r.Within d.ty.width
  · rw [if_pos hw]
    trivial
  rw [if_neg hw, Ends.bind_iff, ends_edit]
  refine Edit.ends_typeOf? fun ty _ => ?_
  by_cases hwidth : ty.width ≠ r.width
  · rw [if_pos hwidth]
    trivial
  rw [if_neg hwidth, Ends.bind_iff, Ends.get_iff]
  by_cases hcur : s.cursor.block ≠ b
  · rw [if_pos hcur]
    trivial
  rw [if_neg hcur]
  rw [Ends.bind_iff]
  refine ((moves_read (p := p) h d.id b).and ((anchors_read h d.id b).and (holds_read h d.id b))).mono
    fun old s₁ ⟨h₁, hold, hheld⟩ => ?_
  rw [ends_sliceIf_bind]
  refine (moves_sliceIf (p := p) _ hold).mono fun above s₂ ⟨h₂, habove, hkeep₂⟩ => ?_
  rw [ends_sliceIf_bind]
  refine (moves_sliceIf (p := p) _ (hkeep₂ old hold)).mono
    fun below s₃ ⟨h₃, hbelow, hkeep₃⟩ => ?_
  -- every part is attached by the time the parts are joined
  have hparts : ∀ a ∈ above ++ o :: below, s₃.graph.Anchors a := by
    intro a ha
    rcases List.mem_append.1 ha with ha | ha
    · exact hkeep₃ a (habove a ha)
    · rcases List.mem_cons.1 ha with rfl | ha
      · exact hkeep₃ a (hkeep₂ a (hheld.anchors ho))
      · exact hbelow a ha
  rw [Ends.bind_iff, ends_emit]
  refine Emit.ends_concat.mono fun joined q hj => ?_
  obtain ⟨_, hej⟩ := hj.emitted (p := p)
  rw [Ends.bind_iff, ends_emit]
  refine Emit.ends_cast.mono fun whole q' hw => ?_
  have he := hw.emitted (p := p)
  rw [Ends.bind_iff]
  refine ((ends_markPartial (Graph.knows_of_typeOf? he.type)).and
    (keeps_tables_markPartial ..)).mono fun _ s₅ ⟨⟨t, ht, hs⟩, htables⟩ => ?_
  subst hs
  have hcounts : t.reaching.stats = s₃.reaching.stats := congrArg Reaching.stats htables
  have hemits := (hej.moves s₃.reaching).trans (he.moves s₃.reaching)
  refine ⟨((h₁.1.trans h₂).trans h₃).trans (hemits.trans (.single (.alike ht hcounts))),
    (ht.graph.typeOf? whole).trans he.type, ?_⟩
  exact ht.graph.anchors (hw.anchors (hj.anchors hparts))

/-- An attached operand of the type of the variable is recorded, and it may get a name. -/
theorem moves_record {x : VarId} {d : Variable} {b : BlockId} {o : Operand}
    (hd : variableById? s.reaching.vars x = some d) (ht : s.graph.typeOf? o = some d.ty)
    (ho : s.graph.Anchors o) (hnear : s.graph.preds b = [] → s.graph.AtHand b o) :
    Ends (do
      (liftM (Track.onTables (·.record x b o)) : Build Unit)
      (liftM (Track.nameAfter x o) : Build Unit)
      pure o : Build Operand) s (fun _ => True) fun _ t =>
        Moves p s.tracked t.tracked := by
  rw [Ends.bind_iff, ends_track, Track.ends_onTables, Ends.bind_iff, ends_track]
  refine ((Track.ends_nameAfter (s := s.tracked.recorded x b o) ho.knows fun _ => trivial).and
    (Track.keeps_stats_nameAfter x o _)).mono fun _ t ⟨halike, hcounts⟩ => ?_
  exact (Moves.single (.write (s := s.tracked) hd ht ho b hnear)).trans
    (.single (.alike halike hcounts))

end Build

end BitFlow
