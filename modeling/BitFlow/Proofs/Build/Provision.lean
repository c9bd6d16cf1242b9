import BitFlow.Proofs.Bench
import BitFlow.Proofs.Emit.Applied
import BitFlow.Proofs.Emit.Atomic

/-!
# What is known of the operands of an expression

The operand that an expression is lowered to is a literal, the answer of a read at the cursor, or an
instruction that was put there, and an instruction takes as operands what was lowered before it. A
property that literals have, that reads provide, and that an instruction has if its operands have
it, is therefore a property of all that expressions are lowered to. Where the lowering stops with a
fault, it has come so far by the same steps.

Main statements: `Provision.lowerExpr`, `Provision.splice` -- the operand of an expression has the
property, and so has the new content of a variable of which a part is written.
-/

namespace BitFlow

/-! ## 1. Looks at a bench -/

theorem Track.looks_declaration (x : VarId) : Looks (Track.declaration x) := by
  refine .look fun s => ?_
  split
  · exact .pure _
  · exact .throw _

namespace Build

variable {α : Type}

theorem looks_track {x : Track α} (hx : Looks x) : Looks (liftM x : Build α) :=
  .focus (fun _ => rfl) hx

theorem looks_edit {x : Edit α} (hx : Looks x) : Looks (liftM x : Build α) :=
  looks_track (.focus (fun _ => rfl) hx)

theorem atomic_edit {x : Edit α} (hx : Atomic x) : Atomic (liftM x : Build α) :=
  have htrack : Atomic (liftM x : Track α) := .focus (fun _ => rfl) hx
  .focus (fun _ => rfl) htrack

theorem looks_refuseArrayBase (base : Expr) (site : String) :
    Looks (refuseArrayBase base site) := by
  unfold refuseArrayBase
  split
  · refine .bind (looks_track (Track.looks_declaration _)) fun d => ?_
    split
    · exact .throw _
    · exact .pure _
  · exact .pure _

theorem looks_bound (e : Expr) (site : String) : Looks (bound e site) := by
  unfold bound
  split
  · exact .pure _
  · exact .throw _

/-- Marking a value changes no more than its origin. -/
theorem leaves_markPartial (x : VarId) (o : Operand) (s : Bench) :
    Leaves (markPartial x o) s (fun _ t => t = s)
      fun _ t => ∃ g, s.graph.Alike g ∧ t = { s with graph := g } := by
  cases o with
  | lit c => exact ⟨s.graph, .refl _, rfl⟩
  | undef ty => exact ⟨s.graph, .refl _, rfl⟩
  | value v =>
    unfold markPartial
    refine (Leaves.focus_iff _).2 ((Leaves.focus_iff _).2 ?_)
    refine .looked (Edit.looks_value v) (A := fun _ => True) (Ends.of_run fun _ _ _ => trivial)
      (fun _ => rfl) fun _ _ => ⟨_, .updateValue s.graph v fun y => ?_, rfl⟩
    split <;> exact ⟨rfl, rfl, rfl, rfl⟩

/-- What a splice leaves, if a failed check leaves that, and so do the read and what follows it. -/
theorem leaves_splice {s : Bench} {E : Fault → Bench → Prop} {Q : Operand → Bench → Prop}
    {d : Variable} {r : BitRange} {b : BlockId} {o : Operand} {site : String} (hE : ∀ e, E e s)
    (h : d.isArray = false → r.Within d.ty.width → ∀ ty, s.graph.typeOf? o = some ty →
      ty.width = r.width → s.cursor.block = b →
        Leaves ((liftM (Track.read d.id b) : Build Operand) >>= fun old =>
          assemble d r old o site) s E Q) :
    Leaves (splice d r b o site) s E Q := by
  rw [splice_eq]
  by_cases harr : d.isArray = true
  · rw [if_pos harr]
    exact hE _
  rw [if_neg harr]
  by_cases hw : ¬ r.Within d.ty.width
  · rw [if_pos hw]
    exact hE _
  rw [if_neg hw]
  refine Leaves.looked (looks_edit (Edit.looks_operandType o))
    ((ends_edit _).2 (Edit.ends_typeOf? fun ty hty => hty)) hE fun ty hty => ?_
  dsimp only
  by_cases hwidth : ty.width ≠ r.width
  · rw [if_pos hwidth]
    exact hE _
  rw [if_neg hwidth, Leaves.bind_iff, Leaves.get_iff]
  by_cases hcur : s.cursor.block ≠ b
  · rw [if_pos hcur]
    exact hE _
  rw [if_neg hcur]
  exact h (by simpa using harr) (Decidable.not_not.1 hw) ty hty (Decidable.not_not.1 hwidth)
    (Decidable.not_not.1 hcur)

/-- The new content of a variable is recorded, and may get a name. -/
def keep (x : VarId) (b : BlockId) (whole : Operand) : Build Operand := do
  Track.onTables (·.record x b whole)
  Track.nameAfter x whole
  pure whole

/-- What a write leaves, if a failed check leaves that, and so does each way to a new content. -/
theorem leaves_write {s : Bench} {E : Fault → Bench → Prop} {Q : Operand → Bench → Prop} {x : VarId}
    {ranges : List BitRange} {b : BlockId} {o : Operand} (hE : ∀ e, E e s)
    (hwhole : ∀ d, variableById? s.reaching.vars x = some d → s.graph.typeOf? o = some d.ty →
      Leaves (keep x b o) s E Q)
    (hpart : ∀ d r site, variableById? s.reaching.vars x = some d →
      Leaves (splice d r b o site) s E fun whole t => Leaves (keep x b whole) t E Q) :
    Leaves (write x ranges b o) s E Q := by
  unfold write
  refine .looked (looks_track (Track.looks_declaration x)) ((ends_track _).2
    (Track.ends_declaration (fun _ => trivial) fun _ hd => hd)) hE fun d hd => ?_
  dsimp only
  split
  · refine .looked (looks_edit (Edit.looks_operandType o))
      ((ends_edit _).2 (Edit.ends_typeOf? fun ty hty => hty)) hE fun ty hty => ?_
    split
    · rename_i e
      subst e
      exact hwhole d hd hty
    · exact hE _
  · rename_i r
    rw [Leaves.bind_iff]
    exact hpart d r _ hd
  · exact hE _

end Build

/-! ## 2. Provided operands -/

/-- The bench with another graph and cursor. -/
abbrev Bench.repoint (s : Bench) (q : Pointed) : Bench :=
  { s with graph := q.graph, cursor := q.cursor }

/-- The bench is again one of `I`, and operands that had the property `P` still have it. -/
structure Upholds (I : Bench → Prop) (P : Graph → Operand → Prop) (s t : Bench) : Prop where
  state : I t
  keeps : ∀ {a}, P s.graph a → P t.graph a

/-- The operand `o` is provided: it has the property as well. -/
structure Provides (I : Bench → Prop) (P : Graph → Operand → Prop) (s : Bench) (o : Operand)
    (t : Bench) : Prop extends Upholds I P s t where
  answer : P t.graph o

/-- **A property of operands that lowering provides** on the benches of `I`, where `E` is what is
    said of a fault and the bench that it leaves: it holds of every bench of `I`. -/
structure Provision (E : Fault → Bench → Prop) (I : Bench → Prop) (P : Graph → Operand → Prop) :
    Prop where
  stop : ∀ {s}, I s → ∀ e, E e s
  lit : ∀ g c, P g (.lit c)
  read : ∀ {s}, I s → ∀ x, Leaves (liftM (Track.read x s.cursor.block) : Build Operand) s E
    (Provides I P s)
  put : ∀ {s ty origin i v q}, I s → (∀ a ∈ i.operands, P s.graph a) →
    Put ⟨s.graph, s.cursor⟩ ty origin i v q → Provides I P s (.value v) (s.repoint q)
  mark : ∀ {s o}, I s → P s.graph o → ∀ x, Leaves (Build.markPartial x o) s E
    fun _ t => Upholds I P s t

variable {E : Fault → Bench → Prop} {I : Bench → Prop} {P : Graph → Operand → Prop}

section Relations

variable {s t u : Bench} {o : Operand}

theorem Upholds.refl (hs : I s) : Upholds I P s s := ⟨hs, id⟩

theorem Upholds.trans (h : Upholds I P s t) (h' : Upholds I P t u) : Upholds I P s u :=
  ⟨h'.state, fun ha => h'.keeps (h.keeps ha)⟩

theorem Provides.refl (hs : I s) (ho : P s.graph o) : Provides I P s o s := ⟨.refl hs, ho⟩

theorem Provides.after (h' : Provides I P t o u) (h : Upholds I P s t) : Provides I P s o u :=
  ⟨h.trans h'.toUpholds, h'.answer⟩

end Relations

namespace Provision

variable {s : Bench} {q : Pointed} {a b c k o : Operand} {ty : Ty}

/-- A property beside one that is provided already. -/
theorem and (h : Provision (fun _ _ => True) I P) {J : Bench → Prop} {Q : Graph → Operand → Prop}
    (lit : ∀ g c, Q g (.lit c))
    (read : ∀ {s}, I s → J s → ∀ x, Ends (liftM (Track.read x s.cursor.block) : Build Operand) s
      (fun _ => True) (Provides J Q s))
    (put : ∀ {s ty origin i v q}, I s → J s → (∀ a ∈ i.operands, P s.graph a ∧ Q s.graph a) →
      Put ⟨s.graph, s.cursor⟩ ty origin i v q → Provides J Q s (.value v) (s.repoint q))
    (mark : ∀ {s o}, I s → J s → P s.graph o → Q s.graph o → ∀ x,
      Ends (Build.markPartial x o) s (fun _ => True) fun _ t => Upholds J Q s t) :
    Provision (fun _ _ => True) (fun s => I s ∧ J s) fun g o => P g o ∧ Q g o where
  stop := fun _ _ => trivial
  lit := fun g c => ⟨h.lit g c, lit g c⟩
  read := fun hs x => ((h.read hs.1 x).ends.and (read hs.1 hs.2 x)).mono fun _ _ ⟨hp, hq⟩ =>
    ⟨⟨⟨hp.state, hq.state⟩, fun ha => ⟨hp.keeps ha.1, hq.keeps ha.2⟩⟩, hp.answer, hq.answer⟩
  put := fun hs hos hput => by
    have hp := h.put hs.1 (fun a ha => (hos a ha).1) hput
    have hq := put hs.1 hs.2 hos hput
    exact ⟨⟨⟨hp.state, hq.state⟩, fun ha => ⟨hp.keeps ha.1, hq.keeps ha.2⟩⟩, hp.answer, hq.answer⟩
  mark := fun hs ho x => ((h.mark hs.1 ho.1 x).ends.and (mark hs.1 hs.2 ho.1 ho.2 x)).mono
    fun _ _ ⟨hp, hq⟩ => ⟨⟨hp.state, hq.state⟩, fun ha => ⟨hp.keeps ha.1, hq.keeps ha.2⟩⟩

/-! ## 3. Emitting operators -/

theorem applied (h : Provision E I P) (hs : I s) {op : Opcode} {os : List Operand}
    (hos : ∀ a ∈ os, P s.graph a) (happ : Applied ⟨s.graph, s.cursor⟩ ty op os o q) :
    Provides I P s o (s.repoint q) := by
  cases happ with
  | folded _ _ => exact .refl hs (h.lit _ _)
  | put _ put => exact h.put hs hos put

theorem converted (h : Provision E I P) (hs : I s) (ha : P s.graph a)
    (hc : Emit.Converted ⟨s.graph, s.cursor⟩ a ty o q) : Provides I P s o (s.repoint q) := by
  cases hc with
  | same _ => exact .refl hs ha
  | applied _ _ applied => exact h.applied hs (List.forall_mem_singleton.2 ha) applied

theorem stored (h : Provision E I P) (hs : I s) (ha : P s.graph a)
    (hst : Emit.Stored ⟨s.graph, s.cursor⟩ a ty o q) : Provides I P s o (s.repoint q) := by
  cases hst with
  | literal _ _ => exact .refl hs (h.lit _ _)
  | converted converted => exact h.converted hs ha converted

theorem sliced (h : Provision E I P) (hs : I s) (ha : P s.graph a) {msb lsb : Nat}
    (hsl : Emit.Sliced ⟨s.graph, s.cursor⟩ a msb lsb o q) : Provides I P s o (s.repoint q) := by
  cases hsl with
  | all _ _ _ => exact .refl hs ha
  | applied _ _ _ _ applied => exact h.applied hs (List.forall_mem_singleton.2 ha) applied

theorem indexed (h : Provision E I P) (hs : I s) (ha : P s.graph a) (hk : P s.graph k)
    (hi : Emit.Indexed ⟨s.graph, s.cursor⟩ a k o q) : Provides I P s o (s.repoint q) := by
  cases hi with
  | literal _ sliced => exact h.sliced hs ha sliced
  | applied _ applied =>
    exact h.applied hs (List.forall_mem_cons.2 ⟨ha, List.forall_mem_singleton.2 hk⟩) applied

theorem joined (h : Provision E I P) (hs : I s) {os : List Operand} (hos : ∀ a ∈ os, P s.graph a)
    (hj : Emit.Joined ⟨s.graph, s.cursor⟩ os o q) : Provides I P s o (s.repoint q) := by
  cases hj with
  | single sole _ _ =>
    subst sole
    exact .refl hs (hos o List.mem_cons_self)
  | applied _ _ _ applied => exact h.applied hs hos applied

theorem tested (h : Provision E I P) (hs : I s) (ha : P s.graph a)
    (ht : Emit.Tested ⟨s.graph, s.cursor⟩ a o q) : Provides I P s o (s.repoint q) := by
  cases ht with
  | same _ => exact .refl hs ha
  | applied _ _ applied =>
    refine h.applied hs (List.forall_mem_cons.2 ⟨ha, ?_⟩) applied
    exact List.forall_mem_singleton.2 (h.lit _ _)

/-- Two operands brought to one type: both are provided. -/
theorem coerced (h : Provision E I P) (hs : I s) (ha : P s.graph a) (hb : P s.graph b)
    {r : Operand × Operand} (hr : Emit.Coerced ⟨s.graph, s.cursor⟩ a b r q) :
    Provides I P s r.1 (s.repoint q) ∧ P q.graph r.2 := by
  cases hr with
  | same _ _ => exact ⟨.refl hs ha, hb⟩
  | right _ _ _ => exact ⟨.refl hs ha, h.lit _ _⟩
  | left _ _ _ _ => exact ⟨.refl hs (h.lit _ _), hb⟩
  | cast _ _ _ _ _ _ applied =>
    have happ := h.applied hs (List.forall_mem_singleton.2 hb) applied
    exact ⟨⟨happ.toUpholds, happ.keeps ha⟩, happ.answer⟩

theorem selected (h : Provision E I P) (hs : I s) (hc : P s.graph c) (ha : P s.graph a)
    (hb : P s.graph b) (hsel : Emit.Selected ⟨s.graph, s.cursor⟩ c a b o q) :
    Provides I P s o (s.repoint q) := by
  cases hsel with
  | decided _ _ _ _ =>
    refine .refl hs ?_
    split
    · exact ha
    · exact hb
  | put _ _ _ _ put =>
    refine h.put hs (List.forall_mem_cons.2 ⟨hc, ?_⟩) put
    exact List.forall_mem_cons.2 ⟨ha, List.forall_mem_singleton.2 hb⟩

/-! ## 4. Expressions -/

/-- What is emitted at the cursor of a bench that is reached already. -/
theorem emitted (h : Provision E I P) {t : Bench} (ht : Upholds I P s t) {x : Emit Operand}
    (hsingle : Emit.Single x)
    (hx : Ends x ⟨t.graph, t.cursor⟩ (fun _ => True) fun o q => Provides I P t o (t.repoint q)) :
    Leaves (liftM x : Build Operand) t E (Provides I P s) := by
  refine (Leaves.focus_iff x).2 ((hsingle.atomic.leaves hx).mono (fun e q hq => ?_)
    fun _ _ ho => ho.after ht)
  rw [hq]
  exact h.stop ht.state e

/-- A look at the bench, and what follows it. -/
theorem looked (h : Provision E I P) (hs : I s) {α : Type} {x : Build α} (hx : Looks x)
    {f : α → Build Operand} (hf : ∀ a, Leaves (f a) s E (Provides I P s)) :
    Leaves (x >>= f) s E (Provides I P s) :=
  (Leaves.bind_iff x f).2 ((hx s).mono (fun e _ ht => ht ▸ h.stop hs e) fun a _ ht => ht ▸ hf a)

theorem literal (h : Provision E I P) (hs : I s) (c : Literal) (site : String) :
    Leaves (Build.literal c site) s E (Provides I P s) := by
  unfold Build.literal
  rw [Leaves.bind_iff, Leaves.get_iff]
  dsimp only
  split
  · exact .refl hs (h.lit _ c)
  · exact h.stop hs _

theorem variableRead (h : Provision E I P) (hs : I s) (x : VarId) (site : String) :
    Leaves (Build.variableRead x site) s E (Provides I P s) := by
  refine h.looked hs (Build.looks_track (Track.looks_declaration x)) fun d => ?_
  dsimp only
  split
  · exact h.stop hs _
  · exact h.read hs x

/-- Two operands are brought to one type, and an operator takes them. -/
theorem coerce (h : Provision E I P) (hs : I s) (ha : P s.graph a) (hb : P s.graph b)
    {site : String} {f : Operand × Operand → Emit Operand} (hsingle : ∀ r, Emit.Single (f r))
    (hf : ∀ (r : Operand × Operand) t, Provides I P s r.1 t → P t.graph r.2 →
      Ends (f r) ⟨t.graph, t.cursor⟩ (fun _ => True) fun o q => Provides I P t o (t.repoint q)) :
    Leaves (do
      let r ← (liftM (Emit.coerce a b site) : Build (Operand × Operand))
      liftM (f r)) s E (Provides I P s) := by
  refine (Leaves.bind_iff _ _).2 ((Leaves.focus_iff _).2 ?_)
  refine ((Emit.single_coerce a b site).atomic.leaves Emit.ends_coerce).mono (fun e q hq => ?_)
    fun r q hr => ?_
  · rw [hq]
    exact h.stop hs e
  · obtain ⟨h1, h2⟩ := h.coerced hs ha hb hr
    exact h.emitted h1.toUpholds (hsingle r) (hf r _ h1 h2)

theorem binary (h : Provision E I P) (hs : I s) (ha : P s.graph a) (hb : P s.graph b) (op : Binary)
    (site : String) : Ends (Emit.binary (.binary op) a b site) ⟨s.graph, s.cursor⟩ (fun _ => True)
      fun o q => Provides I P s o (s.repoint q) :=
  Emit.ends_binary.mono fun _ _ ⟨_, _, _, _, _, happ⟩ =>
    h.applied hs (List.forall_mem_cons.2 ⟨ha, List.forall_mem_singleton.2 hb⟩) happ

mutual

/-- **The operand that an expression is lowered to is provided.** -/
theorem lowerExpr (h : Provision E I P) (e : Expr) {s : Bench} (hs : I s) :
    Leaves (Build.lowerExpr e) s E (Provides I P s) := by
  match e with
  | .lit c =>
    rw [Build.lowerExpr_lit]
    exact h.literal hs c _
  | .var x =>
    rw [Build.lowerExpr_var]
    exact h.variableRead hs x _
  | .unary op arg =>
    rw [Build.lowerExpr]
    refine (h.lowerExpr arg hs).seq fun a s₁ h₁ => ?_
    refine h.emitted h₁.toUpholds (Emit.single_unary _ _ _)
      (Emit.ends_unary.mono fun o q ⟨_, _, happ⟩ => ?_)
    exact h.applied h₁.state (List.forall_mem_singleton.2 h₁.answer) happ
  | .binary op lhs rhs =>
    rw [Build.lowerExpr]
    refine (h.lowerExpr lhs hs).seq fun a s₁ h₁ => ?_
    refine (h.lowerExpr rhs h₁.state).seq fun b s₂ h₂ => ?_
    have ha := h₂.keeps h₁.answer
    have h₁₂ := h₁.toUpholds.trans h₂.toUpholds
    unfold Build.align
    split
    · exact h.emitted h₁₂ (Emit.single_binary _ _ _ _) (h.binary h₂.state ha h₂.answer op _)
    · refine (h.coerce h₂.state ha h₂.answer (fun _ => Emit.single_binary _ _ _ _)
        fun r t ht hr => ?_).mono (fun _ _ he => he) fun _ _ ho => ho.after h₁₂
      exact h.binary ht.state ht.answer hr op _
  | .compare op lhs rhs =>
    rw [Build.lowerExpr]
    refine (h.lowerExpr lhs hs).seq fun a s₁ h₁ => ?_
    refine (h.lowerExpr rhs h₁.state).seq fun b s₂ h₂ => ?_
    refine (h.coerce h₂.state (h₂.keeps h₁.answer) h₂.answer
      (fun _ => Emit.single_compare _ _ _ _) fun r t ht hr => ?_).mono (fun _ _ he => he)
      fun _ _ ho => ho.after (h₁.toUpholds.trans h₂.toUpholds)
    refine Emit.ends_compare.mono fun o q ⟨_, _, _, _, _, happ⟩ => ?_
    exact h.applied ht.state
      (List.forall_mem_cons.2 ⟨ht.answer, List.forall_mem_singleton.2 hr⟩) happ
  | .concat parts =>
    rw [Build.lowerExpr]
    refine (h.lowerExprs parts hs).seq fun os s₁ ⟨h₁, hos⟩ => ?_
    refine h.emitted h₁ (Emit.single_concat _ _) (Emit.ends_concat.mono fun o q hj => ?_)
    exact h.joined h₁.state hos hj
  | .bit base pos =>
    rw [Build.lowerExpr]
    refine h.looked hs (Build.looks_refuseArrayBase base _) fun _ => ?_
    refine (h.lowerExpr base hs).seq fun a s₁ h₁ => ?_
    refine (h.lowerExpr pos h₁.state).seq fun k s₂ h₂ => ?_
    refine h.emitted (h₁.toUpholds.trans h₂.toUpholds) (Emit.single_index _ _ _)
      (Emit.ends_index.mono fun o q hi => ?_)
    exact h.indexed h₂.state (h₂.keeps h₁.answer) h₂.answer hi
  | .range base msb lsb =>
    rw [Build.lowerExpr]
    refine h.looked hs (Build.looks_refuseArrayBase base _) fun _ => ?_
    refine (h.lowerExpr base hs).seq fun a s₁ h₁ => ?_
    refine (h.looked h₁.state (Build.looks_bound msb _) fun hi => ?_).mono (fun _ _ he => he)
      fun _ _ ho => ho.after h₁.toUpholds
    refine h.looked h₁.state (Build.looks_bound lsb _) fun lo => ?_
    refine h.emitted (.refl h₁.state) (Emit.single_slice _ _ _ _)
      (Emit.ends_slice.mono fun o q hsl => ?_)
    exact h.sliced h₁.state h₁.answer hsl
  | .ternary cond yes no =>
    rw [Build.lowerExpr]
    refine (h.lowerExpr cond hs).seq fun c s₁ h₁ => ?_
    refine (h.emitted h₁.toUpholds (Emit.single_condition _ _) (Emit.ends_condition.mono
      fun o q ht => h.tested h₁.state h₁.answer ht)).seq fun c s₂ h₂ => ?_
    refine (h.lowerExpr yes h₂.state).seq fun a s₃ h₃ => ?_
    refine (h.lowerExpr no h₃.state).seq fun b s₄ h₄ => ?_
    have hc := h₄.keeps (h₃.keeps h₂.answer)
    refine (h.coerce h₄.state (h₄.keeps h₃.answer) h₄.answer
      (fun _ => Emit.single_select _ _ _ _) fun r t ht hr => ?_).mono (fun _ _ he => he)
      fun _ _ ho => ho.after ((h₂.toUpholds.trans h₃.toUpholds).trans h₄.toUpholds)
    refine Emit.ends_select.mono fun o q hsel => ?_
    exact h.selected ht.state (ht.keeps hc) ht.answer hr hsel
  | .cast arg ty =>
    rw [Build.lowerExpr]
    refine (h.lowerExpr arg hs).seq fun a s₁ h₁ => ?_
    refine h.emitted h₁.toUpholds (Emit.single_cast _ _ _) (Emit.ends_cast.mono fun o q hc => ?_)
    exact h.converted h₁.state h₁.answer hc

/-- The operands of some expressions are all provided in the end. -/
theorem lowerExprs (h : Provision E I P) (es : List Expr) {s : Bench} (hs : I s) :
    Leaves (Build.lowerExprs es) s E fun os t => Upholds I P s t ∧ ∀ o ∈ os, P t.graph o := by
  match es with
  | [] =>
    rw [Build.lowerExprs]
    exact ⟨.refl hs, fun _ ho => by cases ho⟩
  | e :: es =>
    rw [Build.lowerExprs]
    refine (h.lowerExpr e hs).seq fun o s₁ h₁ => ?_
    refine (h.lowerExprs es h₁.state).seq fun os s₂ ⟨h₂, hos⟩ => ?_
    exact ⟨h₁.toUpholds.trans h₂, List.forall_mem_cons.2 ⟨h₂.keeps h₁.answer, hos⟩⟩

end

/-- The truth value of an expression. -/
theorem lowerCondition (h : Provision E I P) (e : Expr) (hs : I s) :
    Leaves (Build.lowerCondition e) s E (Provides I P s) := by
  unfold Build.lowerCondition
  refine (h.lowerExpr e hs).seq fun a s₁ h₁ => ?_
  refine h.emitted h₁.toUpholds (Emit.single_condition _ _)
    (Emit.ends_condition.mono fun o q ht => ?_)
  exact h.tested h₁.state h₁.answer ht

/-! ## 5. Writes -/

/-- An operand stored at the type of its place. -/
theorem coerceTo (h : Provision E I P) (hs : I s) (ha : P s.graph a) (ty : Ty) (site : String) :
    Leaves (liftM (Emit.coerceTo a ty site) : Build Operand) s E (Provides I P s) :=
  h.emitted (.refl hs) (Emit.single_coerceTo _ _ _)
    (Emit.ends_coerceTo.mono fun _ _ hst => h.stored hs ha hst)

/-- The slices of an operand. -/
theorem sliceIf (h : Provision E I P) (hs : I s) (ha : P s.graph a) (c : Prop) [Decidable c]
    (msb lsb : Nat) (site : String) :
    Leaves (Build.sliceIf c a msb lsb site) s E fun os t =>
      Upholds I P s t ∧ ∀ o ∈ os, P t.graph o := by
  unfold Build.sliceIf
  split
  · refine (h.emitted (.refl hs) (Emit.single_slice _ _ _ _) (Emit.ends_slice.mono
      fun o q hsl => h.sliced hs ha hsl)).seq fun o t ho => ?_
    exact ⟨ho.toUpholds, List.forall_mem_singleton.2 ho.answer⟩
  · exact ⟨.refl hs, fun _ ho => by cases ho⟩

/-- The old content of a variable with one part replaced. -/
theorem assemble (h : Provision E I P) (hs : I s) {old : Operand} (hold : P s.graph old)
    (ho : P s.graph o) (d : Variable) (r : BitRange) (site : String) :
    Leaves (Build.assemble d r old o site) s E (Provides I P s) := by
  unfold Build.assemble
  refine (h.sliceIf hs hold _ _ _ site).seq fun above s₁ ⟨h₁, habove⟩ => ?_
  refine (h.sliceIf h₁.state (h₁.keeps hold) _ _ _ site).seq fun below s₂ ⟨h₂, hbelow⟩ => ?_
  have h₀₂ := h₁.trans h₂
  have hparts : ∀ a ∈ above ++ o :: below, P s₂.graph a :=
    List.forall_mem_append.2 ⟨fun a ha => h₂.keeps (habove a ha),
      List.forall_mem_cons.2 ⟨h₀₂.keeps ho, hbelow⟩⟩
  refine (h.emitted h₀₂ (Emit.single_concat _ _) (Emit.ends_concat.mono fun a q hj =>
    h.joined h₂.state hparts hj)).seq fun joined s₃ h₃ => ?_
  refine (h.emitted h₃.toUpholds (Emit.single_cast _ _ _) (Emit.ends_cast.mono fun a q hc =>
    h.converted h₃.state h₃.answer hc)).seq fun whole s₄ h₄ => ?_
  refine (h.mark h₄.state h₄.answer d.id).seq fun _ s₅ h₅ => ?_
  exact ⟨h₄.toUpholds.trans h₅, h₅.keeps h₄.answer⟩

/-- **The content of a whole variable with one part replaced is provided.** -/
theorem splice (h : Provision E I P) (hs : I s) (ho : P s.graph o) (d : Variable) (r : BitRange)
    (b : BlockId) (site : String) :
    Leaves (Build.splice d r b o site) s E (Provides I P s) :=
  Build.leaves_splice (h.stop hs) fun _ _ _ _ _ hcur => by
    subst hcur
    refine (h.read hs d.id).seq fun old s₁ h₁ => ?_
    exact (h.assemble h₁.state h₁.answer (h₁.keeps ho) d r site).mono (fun _ _ he => he)
      fun _ _ hw => hw.after h₁.toUpholds

end Provision

end BitFlow
