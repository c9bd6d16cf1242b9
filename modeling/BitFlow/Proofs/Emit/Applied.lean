import BitFlow.Emit.Operators
import BitFlow.Proofs.Bits.Fold
import BitFlow.Proofs.Graph.Grow

/-!
# What emitting an operator leaves

An operator that is emitted is folded, or it becomes an instruction at the cursor, or it gives one
of its operands back. One inversion lemma for each operator says which, with the types under which
that happens; what follows about emitted code follows from these lemmas alone.

Main statements: `Emit.ends_apply` and one statement for each operator, up to `Emit.ends_coerce`,
`Emit.ends_coerceTo` and `Emit.ends_condition`.
-/

namespace BitFlow

/-! ## 1. Types of operands -/

/-- The type of an operand, if the graph has it. -/
def Graph.typeOf? (g : Graph) : Operand → Option Ty
  | .value v => (g.value? v).map Value.ty
  | .lit c => some c.ty
  | .undef ty => some ty

@[simp] theorem Graph.typeOf?_lit (g : Graph) (c : Literal) : g.typeOf? (.lit c) = some c.ty := rfl

@[simp] theorem Graph.typeOf?_undef (g : Graph) (ty : Ty) : g.typeOf? (.undef ty) = some ty := rfl

theorem Graph.typeOf?_value {g : Graph} {v : ValueId} {x : Value} (h : g.value? v = some x) :
    g.typeOf? (.value v) = some x.ty := by
  show (g.value? v).map Value.ty = _
  rw [h]
  rfl

/-- The type of an operand is looked up, and nothing changes. -/
theorem Edit.ends_typeOf? {g : Graph} {o : Operand} {Q : Ty → Graph → Prop}
    (h : ∀ ty, g.typeOf? o = some ty → Q ty g) :
    Ends (Edit.operandType o) g (fun _ => True) Q := by
  unfold Edit.operandType
  cases o with
  | lit c => exact h _ rfl
  | undef ty => exact h _ rfl
  | value v =>
    rw [Ends.bind_iff]
    cases hx : g.value? v with
    | some x =>
      rw [Edit.ends_value hx]
      exact h _ (Graph.typeOf?_value hx)
    | none =>
      unfold Ends
      rw [Edit.run_value, hx]
      trivial

namespace Emit

variable {p q : Pointed} {R : Fault → Prop}

theorem ends_edit {α : Type} {Q : α → Pointed → Prop} (x : Edit α) :
    Ends (liftM x : Emit α) p R Q ↔ Ends x p.graph R fun a g => Q a { p with graph := g } :=
  Ends.focus_iff x

theorem ends_operandType {o : Operand} {Q : Ty → Pointed → Prop}
    (h : ∀ ty, p.graph.typeOf? o = some ty → Q ty p) :
    Ends (liftM (Edit.operandType o) : Emit Ty) p (fun _ => True) Q :=
  (ends_edit _).2 (Edit.ends_typeOf? h)

end Emit

/-! ## 2. Instructions and operators -/

/-- The instruction `i` of type `ty` was put at the cursor and got the name `v`. -/
structure Put (p : Pointed) (ty : Ty) (origin : Origin) (i : Instr) (v : ValueId) (q : Pointed) :
    Prop where
  name : v = p.graph.nextValue
  place : ∃ y, p.graph.block? p.cursor.block = some y ∧
    p.cursor.position.getD y.instrs.length ≤ y.instrs.length ∧
    q.graph = p.graph.withInstr p.cursor.block (p.cursor.position.getD y.instrs.length) ty origin i
  cursor : q.cursor = p.cursor.advance

namespace Put

variable {p q : Pointed} {ty : Ty} {origin : Origin} {i : Instr} {v : ValueId}

theorem known (h : Put p ty origin i v q) : ∃ y, p.graph.block? p.cursor.block = some y :=
  h.place.imp fun _ hy => hy.1

theorem graph (h : Put p ty origin i v q) :
    ∃ place, q.graph = p.graph.withInstr p.cursor.block place ty origin i := by
  obtain ⟨y, -, -, hg⟩ := h.place
  exact ⟨_, hg⟩

end Put

/-- An operator was applied: it was folded, or it could not be and became an instruction. -/
inductive Applied (p : Pointed) (ty : Ty) (op : Opcode) (os : List Operand) :
    Operand → Pointed → Prop
  | folded {cs : List Literal} {c : Literal} (literals : os = cs.map .lit)
      (value : fold op cs ty = some c) : Applied p ty op os (.lit c) p
  | put {v : ValueId} {q : Pointed} (stuck : ∀ cs, os = cs.map .lit → fold op cs ty = none)
      (put : Put p ty .expression ⟨op, os, none⟩ v q) : Applied p ty op os (.value v) q

theorem mapM_literal?_eq_some {os : List Operand} {cs : List Literal} :
    os.mapM Operand.literal? = some cs ↔ os = cs.map .lit := by
  induction os generalizing cs with
  | nil => cases cs <;> simp
  | cons o os ih =>
    rw [List.mapM_cons]
    cases o with
    | lit c =>
      show (os.mapM Operand.literal? >>= fun cs' => pure (c :: cs')) = some cs ↔ _
      cases cs with
      | nil =>
        simp only [List.map_nil, reduceCtorEq, iff_false]
        intro h
        obtain ⟨cs', -, h⟩ := Option.bind_eq_some_iff.1 h
        cases h
      | cons d ds =>
        constructor
        · intro h
          obtain ⟨cs', hcs, h⟩ := Option.bind_eq_some_iff.1 h
          cases h
          rw [ih.1 hcs, List.map_cons]
        · intro h
          rw [List.map_cons] at h
          cases h
          rw [ih.2 rfl]
          rfl
    | value v => cases cs <;> simp [Operand.literal?]
    | undef ty => cases cs <;> simp [Operand.literal?]

/-- An operator on literals that can be folded is folded. -/
theorem Applied.eq_of_fold {p q : Pointed} {ty : Ty} {op : Opcode} (cs : List Literal) {o : Operand}
    {c : Literal} (h : Applied p ty op (cs.map .lit) o q) (hf : fold op cs ty = some c) :
    o = .lit c ∧ q = p := by
  cases h with
  | folded literals value =>
    have := mapM_literal?_eq_some.2 literals
    rw [mapM_literal?_eq_some.2 rfl] at this
    cases this
    cases hf.symm.trans value
    exact ⟨rfl, rfl⟩
  | put stuck =>
    rw [stuck cs rfl] at hf
    cases hf

namespace Emit

variable {p q : Pointed}

theorem ends_instr {ty : Ty} {op : Opcode} {os : List Operand} {portUse : Option PortUse}
    {origin : Origin} :
    Ends (instr ty op os portUse origin) p (fun _ => True)
      fun v q => Put p ty origin ⟨op, os, portUse⟩ v q := by
  unfold instr
  rw [Ends.bind_iff, Ends.get_iff, Ends.bind_iff, ends_edit]
  cases hy : p.graph.block? p.cursor.block with
  | none =>
    unfold Edit.insertInstr
    rw [Ends.bind_iff]
    refine Edit.ends_block_or trivial fun y hy' => ?_
    rw [hy] at hy'
    cases hy'
  | some y =>
    refine Edit.ends_insertInstr hy (fun _ => trivial) fun hplace => ?_
    exact ⟨rfl, ⟨y, hy, hplace, rfl⟩, rfl⟩

theorem ends_apply {ty : Ty} {op : Opcode} {os : List Operand} :
    Ends (apply ty op os) p (fun _ => True) (Applied p ty op os) := by
  unfold apply
  split
  · rename_i c hc
    obtain ⟨cs, hcs, hf⟩ := Option.bind_eq_some_iff.1 hc
    exact .folded (mapM_literal?_eq_some.1 hcs) hf
  · rename_i hc
    refine Ends.seq ends_instr fun v q hput => .put (fun cs hos => ?_) hput
    unfold folded? at hc
    rw [mapM_literal?_eq_some.2 hos] at hc
    exact hc

/-! ## 3. Each operator -/

theorem ends_unary {op : Unary} {a : Operand} {site : String} :
    Ends (unary (.unary op) a site) p (fun _ => True) fun o q =>
      ∃ ty, p.graph.typeOf? a = some ty ∧ Applied p ty (.unary op) [a] o q := by
  unfold unary
  rw [Ends.bind_iff]
  refine ends_operandType fun ty ht => ?_
  exact ends_apply.mono fun o q h => ⟨ty, ht, h⟩

theorem ends_binary {op : Binary} {a b : Operand} {site : String} :
    Ends (binary (.binary op) a b site) p (fun _ => True) fun o q =>
      ∃ ta tb, p.graph.typeOf? a = some ta ∧ p.graph.typeOf? b = some tb ∧
        (op.isShift ∨ ta.width = tb.width) ∧ Applied p ta (.binary op) [a, b] o q := by
  unfold binary
  rw [Ends.bind_iff]
  refine ends_operandType fun ta ha => ?_
  rw [Ends.bind_iff]
  refine ends_operandType fun tb hb => ?_
  dsimp only
  split
  · rename_i hw
    exact ends_apply.mono fun o q h => ⟨ta, tb, ha, hb, hw, h⟩
  · trivial

theorem ends_compare {op : Relation} {a b : Operand} {site : String} :
    Ends (compare (.compare op) a b site) p (fun _ => True) fun o q =>
      ∃ ta tb, p.graph.typeOf? a = some ta ∧ p.graph.typeOf? b = some tb ∧
        ta.width = tb.width ∧ Applied p .bit (.compare op) [a, b] o q := by
  unfold compare
  rw [Ends.bind_iff]
  refine ends_operandType fun ta ha => ?_
  rw [Ends.bind_iff]
  refine ends_operandType fun tb hb => ?_
  split
  · rename_i hw
    exact ends_apply.mono fun o q h => ⟨ta, tb, ha, hb, hw, h⟩
  · trivial

/-- The types of some operands, if the graph has them all. -/
theorem ends_operandTypes {os : List Operand} {Q : List Ty → Pointed → Prop}
    (h : ∀ tys, os.map p.graph.typeOf? = tys.map some → Q tys p) :
    Ends (os.mapM fun o => (liftM (Edit.operandType o) : Emit Ty)) p (fun _ => True) Q := by
  induction os generalizing Q with
  | nil =>
    rw [List.mapM_nil]
    exact h [] rfl
  | cons o os ih =>
    rw [List.mapM_cons, Ends.bind_iff]
    refine ends_operandType fun ty ht => ?_
    rw [Ends.bind_iff]
    refine ih fun tys htys => ?_
    refine h (ty :: tys) ?_
    rw [List.map_cons, List.map_cons, ht, htys]

/-- The width of some parts side by side, cut at the largest word. -/
def joinedWidth (tys : List Ty) : Nat := tys.foldl (fun w t => addWidth w t.width) 0

theorem joinedWidth_eq (tys : List Ty) : joinedWidth tys = min (widthSum tys) wordMax := by
  suffices H : ∀ n, n ≤ wordMax → tys.foldl (fun w t => addWidth w t.width) n =
      min (n + widthSum tys) wordMax by
    have := H 0 (Nat.zero_le _)
    rwa [Nat.zero_add] at this
  induction tys with
  | nil => exact fun n hn => (Nat.min_eq_left hn).symm
  | cons t tys ih =>
    intro n _
    rw [List.foldl_cons, ih (addWidth n t.width) (Nat.min_le_right _ _)]
    show min (min (n + t.width) wordMax + widthSum tys) wordMax =
      min (n + (t.width + widthSum tys)) wordMax
    omega

/-- A concatenation was emitted: a single unsigned part is the answer itself. -/
inductive Joined (p : Pointed) (os : List Operand) : Operand → Pointed → Prop
  | single {o : Operand} {ty : Ty} (sole : os = [o]) (type : p.graph.typeOf? o = some ty)
      (unsigned : ty.signed = false) : Joined p os o p
  | applied {tys : List Ty} {o : Operand} {q : Pointed} (nonempty : os ≠ [])
      (types : os.map p.graph.typeOf? = tys.map some)
      (several : ∀ a ty, os = [a] → tys = [ty] → ty.signed = true)
      (applied : Applied p (.unsigned (joinedWidth tys)) .concat os o q) : Joined p os o q

theorem ends_concat {os : List Operand} {site : String} :
    Ends (concat os site) p (fun _ => True) (Joined p os) := by
  unfold concat
  rw [Ends.bind_iff]
  refine ends_operandTypes fun tys htys => ?_
  dsimp only
  split
  · trivial
  · rename_i part t
    split
    · rename_i hs
      refine ends_apply.mono fun o q h => .applied (by simp) htys (fun a ty _ e => ?_) h
      cases e
      exact hs
    · rename_i hs
      have ht : p.graph.typeOf? part = some t := (List.cons.inj htys).1
      exact .single rfl ht (by simpa using hs)
  · rename_i hne hmany
    exact ends_apply.mono fun o q h =>
      .applied (fun e => hne e) htys (fun a ty e e' => (hmany a ty e e').elim) h

/-- A slice was emitted: all bits of an unsigned operand are the operand itself. -/
inductive Sliced (p : Pointed) (a : Operand) (msb lsb : Nat) : Operand → Pointed → Prop
  | all (type : p.graph.typeOf? a = some (.unsigned (msb - lsb + 1))) (le : lsb ≤ msb)
      (lt : msb < msb - lsb + 1) : Sliced p a msb lsb a p
  | applied {ty : Ty} {o : Operand} {q : Pointed} (type : p.graph.typeOf? a = some ty)
      (le : lsb ≤ msb) (lt : msb < ty.width) (part : Ty.unsigned (msb - lsb + 1) ≠ ty)
      (applied : Applied p (.unsigned (msb - lsb + 1)) (.slice msb lsb) [a] o q) :
      Sliced p a msb lsb o q

theorem ends_slice {a : Operand} {msb lsb : Nat} {site : String} :
    Ends (slice a msb lsb site) p (fun _ => True) (Sliced p a msb lsb) := by
  unfold slice
  rw [Ends.bind_iff]
  refine ends_operandType fun ty ht => ?_
  split
  · rename_i hw
    dsimp only
    split
    · rename_i e
      subst e
      exact .all ht hw.1 hw.2
    · rename_i hne
      exact ends_apply.mono fun o q h => .applied ht hw.1 hw.2 hne h
  · trivial

/-- One bit was emitted: at a literal position as a slice. -/
inductive Indexed (p : Pointed) (a k : Operand) : Operand → Pointed → Prop
  | literal {c : Literal} {o : Operand} {q : Pointed} (position : k = .lit c)
      (sliced : Sliced p a (min c.bits wordMax) (min c.bits wordMax) o q) : Indexed p a k o q
  | applied {o : Operand} {q : Pointed} (position : k.literal? = none)
      (applied : Applied p .bit .index [a, k] o q) : Indexed p a k o q

theorem ends_index {a k : Operand} {site : String} :
    Ends (index a k site) p (fun _ => True) (Indexed p a k) := by
  unfold index
  split
  · rename_i c hc
    have hk : k = .lit c := by
      cases k <;> cases hc
      rfl
    exact ends_slice.mono fun o q h => .literal hk h
  · rename_i hk
    exact ends_apply.mono fun o q h => .applied hk h

/-- A choice was emitted: a literal condition decides it at once. -/
inductive Selected (p : Pointed) (c a b : Operand) : Operand → Pointed → Prop
  | decided {k : Literal} {ty : Ty} (cond : c = .lit k) (bit : k.ty = .bit)
      (left : p.graph.typeOf? a = some ty) (right : p.graph.typeOf? b = some ty) :
      Selected p c a b (if k.isTrue then a else b) p
  | put {ty : Ty} {v : ValueId} {q : Pointed} (cond : c.literal? = none)
      (bit : p.graph.typeOf? c = some .bit) (left : p.graph.typeOf? a = some ty)
      (right : p.graph.typeOf? b = some ty)
      (put : Put p ty .expression ⟨.select, [c, a, b], none⟩ v q) : Selected p c a b (.value v) q

theorem ends_select {c a b : Operand} {site : String} :
    Ends (select c a b site) p (fun _ => True) (Selected p c a b) := by
  unfold select
  rw [Ends.bind_iff]
  refine ends_operandType fun tc hc => ?_
  dsimp only
  split
  · rw [Ends.bind_iff]
    trivial
  rename_i hbit
  have hbit : tc = .bit := by simpa using hbit
  subst hbit
  rw [Ends.bind_iff]
  refine ends_operandType fun ta ha => ?_
  rw [Ends.bind_iff]
  refine ends_operandType fun tb hb => ?_
  split
  · rw [Ends.bind_iff]
    trivial
  rename_i hne
  have e : ta = tb := Decidable.not_not.1 hne
  subst e
  split
  · rename_i k hk
    cases c with
    | lit k' =>
      cases hk
      exact .decided rfl (Option.some.inj hc) ha hb
    | value v => cases hk
    | undef ty => cases hk
  · rename_i hk
    exact Ends.seq ends_instr fun v q h => .put hk hc ha hb h

/-- A conversion was emitted: one to the type that the operand has is left out. -/
inductive Converted (p : Pointed) (a : Operand) (ty : Ty) : Operand → Pointed → Prop
  | same (type : p.graph.typeOf? a = some ty) : Converted p a ty a p
  | applied {t : Ty} {o : Operand} {q : Pointed} (type : p.graph.typeOf? a = some t) (ne : t ≠ ty)
      (applied : Applied p ty .cast [a] o q) : Converted p a ty o q

theorem ends_cast {a : Operand} {ty : Ty} {site : String} :
    Ends (cast a ty site) p (fun _ => True) (Converted p a ty) := by
  unfold cast
  split
  · rw [Ends.bind_iff]
    trivial
  rw [Ends.bind_iff]
  refine ends_operandType fun t ht => ?_
  split
  · rename_i e
    subst e
    exact .same ht
  · rename_i hne
    exact ends_apply.mono fun o q h => .applied ht hne h

/-! ## 4. Bringing operands together -/

/-- Two operands were brought to one type. -/
inductive Coerced (p : Pointed) (a b : Operand) : Operand × Operand → Pointed → Prop
  | same {ty : Ty} (left : p.graph.typeOf? a = some ty) (right : p.graph.typeOf? b = some ty) :
      Coerced p a b (a, b) p
  | right {ty : Ty} {c : Literal} (left : p.graph.typeOf? a = some ty) (literal : b = .lit c)
      (ne : ty ≠ c.ty) : Coerced p a b (a, .lit (c.resize ty)) p
  | left {ty : Ty} {c : Literal} (right : p.graph.typeOf? b = some ty) (literal : a = .lit c)
      (other : b.literal? = none) (ne : c.ty ≠ ty) : Coerced p a b (.lit (c.resize ty), b) p
  | cast {ta tb : Ty} {o : Operand} {q : Pointed} (left : p.graph.typeOf? a = some ta)
      (right : p.graph.typeOf? b = some tb) (ne : ta ≠ tb) (width : ta.width = tb.width)
      (lhs : a.literal? = none) (rhs : b.literal? = none)
      (applied : Applied p ta .cast [b] o q) : Coerced p a b (a, o) q

theorem eq_lit_of_literal? {o : Operand} {c : Literal} (h : o.literal? = some c) : o = .lit c := by
  cases o <;> cases h
  rfl

theorem ends_coerce {a b : Operand} {site : String} :
    Ends (coerce a b site) p (fun _ => True) (Coerced p a b) := by
  unfold coerce
  rw [Ends.bind_iff]
  refine ends_operandType fun ta ha => ?_
  rw [Ends.bind_iff]
  refine ends_operandType fun tb hb => ?_
  split
  · rename_i e
    subst e
    exact .same ha hb
  rename_i hne
  split
  · rename_i c hc
    cases eq_lit_of_literal? hc
    cases hb
    exact .right ha rfl hne
  · rename_i c hc hb'
    cases eq_lit_of_literal? hc
    cases ha
    exact .left hb rfl hb' hne
  · rename_i hla hlb
    split
    · rename_i hw
      refine Ends.seq ends_cast fun o q h => ?_
      cases h with
      | same type =>
        cases hb.symm.trans type
        exact absurd rfl hne
      | applied _ _ applied => exact .cast ha hb hne hw hla hlb applied
    · trivial

/-- An operand was brought to the type of the place where it is stored. -/
inductive Stored (p : Pointed) (a : Operand) (ty : Ty) : Operand → Pointed → Prop
  | literal {c : Literal} (literal : a = .lit c) (ne : c.ty ≠ ty) :
      Stored p a ty (.lit (c.resize ty)) p
  | converted {o : Operand} {q : Pointed} (converted : Converted p a ty o q) : Stored p a ty o q

theorem ends_coerceTo {a : Operand} {ty : Ty} {site : String} :
    Ends (coerceTo a ty site) p (fun _ => True) (Stored p a ty) := by
  unfold coerceTo
  rw [Ends.bind_iff]
  refine ends_operandType fun t ht => ?_
  split
  · rename_i e
    subst e
    exact .converted (.same ht)
  rename_i hne
  split
  · rename_i c hc
    cases eq_lit_of_literal? hc
    cases ht
    exact .literal rfl hne
  · split
    · exact ends_cast.mono fun o q h => .converted h
    · trivial

/-- An operand was made a truth value. -/
inductive Tested (p : Pointed) (a : Operand) : Operand → Pointed → Prop
  | same (type : p.graph.typeOf? a = some .bit) : Tested p a a p
  | applied {ty : Ty} {o : Operand} {q : Pointed} (type : p.graph.typeOf? a = some ty)
      (ne : ty ≠ .bit) (applied : Applied p .bit (.compare .ne) [a, .lit (.zero ty)] o q) :
      Tested p a o q

theorem ends_condition {a : Operand} {site : String} :
    Ends (condition a site) p (fun _ => True) (Tested p a) := by
  unfold condition
  rw [Ends.bind_iff]
  refine ends_operandType fun ty ht => ?_
  split
  · rename_i hbit
    rw [Ty.isBit_iff] at hbit
    subst hbit
    exact .same ht
  · rename_i hbit
    rw [Ty.isBit_iff] at hbit
    exact ends_compare.mono fun o q ⟨_, _, _, _, _, h⟩ => .applied ht hbit h

end Emit

end BitFlow
