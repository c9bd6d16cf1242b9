import BitFlow.Proofs.Bench
import BitFlow.Proofs.Emit.Overflow
import BitFlow.Proofs.Width.Graph

/-!
# How wide literals get

A literal of the source is refused if it is wider than the storage, and what is folded is not wider
either. But where two operands meet, or an operand meets the place that takes it, a literal gets the
type of the other side, and that may be any type that was declared or that some value has.
`Graph.Sizes` says that a type is no wider than one of these, and not empty. Where none of these is
wider than the storage, every literal is one that the storage holds, and no arithmetic overflows.

Main statements: `Graph.wide_of_unheld` -- a literal that the storage does not hold tells that
something is wider than the storage; `Emit.emits_apply`, `Emit.emits_coerceTo` and their companions
-- no operator makes an operand of another size, whether it ends with an answer or with a fault.
-/

namespace BitFlow

/-! ## 1. Sizes -/

/-- **The type is not empty, and no wider than the storage**, a declared variable or port of `p`, or
    a value of the graph. -/
def Graph.Sizes (p : Program) (g : Graph) (ty : Ty) : Prop :=
  1 ≤ ty.width ∧ (ty.width ≤ storageBits ∨ (∃ d ∈ p.vars, ty.width ≤ d.ty.width) ∨
    (∃ q ∈ p.ports, ty.width ≤ q.ty.width) ∨
    ∃ v x, g.value? v = some x ∧ ty.width ≤ x.ty.width)

/-- A literal or an undefined operand is of such a type. -/
def Graph.Sized (p : Program) (g : Graph) : Operand → Prop
  | .value _ => True
  | .lit c => g.Sizes p c.ty
  | .undef ty => g.Sizes p ty

/-- **All operands of the graph are of such types**, and so are all its values. -/
def Graph.Measured (p : Program) (g : Graph) : Prop := g.Bears (g.Sized p) g

/-- The same for a graph with its tables. -/
def Tracked.Measured (p : Program) (t : Tracked) : Prop := t.Bears (t.graph.Sized p) t.graph

/-- **Something is wider than the storage**: a declared variable or port of `p`, or a value of the
    graph. -/
def Graph.Wide (p : Program) (g : Graph) : Prop :=
  (∃ d ∈ p.vars, storageBits < d.ty.width) ∨ (∃ q ∈ p.ports, storageBits < q.ty.width) ∨
    ∃ v x, g.value? v = some x ∧ storageBits < x.ty.width

variable {p : Program}

namespace Graph

variable {g g' g'' : Graph} {ty : Ty} {o : Operand}

theorem Sizes.mono (h : g.Sizes p ty) (hk : g.KeepsTypes g') : g'.Sizes p ty := by
  refine ⟨h.1, h.2.imp_right (.imp_right (.imp_right fun ⟨v, x, hx, hle⟩ => ?_))⟩
  obtain ⟨y, hy, hty⟩ := Option.map_eq_some_iff.1 (hk _ _ (typeOf?_value hx))
  exact ⟨v, y, hy, hty ▸ hle⟩

theorem Sizes.of_le (h : g.Sizes p ty) {ty' : Ty} (hpos : 1 ≤ ty'.width)
    (hle : ty'.width ≤ ty.width) : g.Sizes p ty' :=
  ⟨hpos, h.2.imp (Nat.le_trans hle) (.imp (fun ⟨d, hd, hw⟩ => ⟨d, hd, Nat.le_trans hle hw⟩)
    (.imp (fun ⟨q, hq, hw⟩ => ⟨q, hq, Nat.le_trans hle hw⟩)
      fun ⟨v, x, hx, hw⟩ => ⟨v, x, hx, Nat.le_trans hle hw⟩))⟩

theorem sizes_of_holdsLiterals (h : ty.holdsLiterals = true) : g.Sizes p ty :=
  have hw := (Ty.holdsLiterals_iff ty).1 h
  ⟨hw.1, .inl hw.2⟩

theorem Sized.mono (h : g.Sized p o) (hk : g.KeepsTypes g') : g'.Sized p o := by
  cases o with
  | value v => trivial
  | lit c => exact Sizes.mono h hk
  | undef ty => exact Sizes.mono h hk

/-- **A literal that the storage does not hold** is of no allowed size unless something is wider
    than the storage. -/
theorem wide_of_unheld {os : List Operand} (hos : ∀ o ∈ os, g.Sized p o) (h : Emit.Unheld os) :
    g.Wide p := by
  obtain ⟨c, hc, hn⟩ := h
  obtain ⟨hpos, hle⟩ : g.Sizes p c.ty := hos _ hc
  have hwide : storageBits < c.ty.width := by
    by_contra hnot
    rw [(Ty.holdsLiterals_iff c.ty).2 ⟨hpos, Nat.le_of_not_lt hnot⟩] at hn
    cases hn
  rcases hle with hle | ⟨d, hd, hle⟩ | ⟨q, hq, hle⟩ | ⟨v, x, hx, hle⟩
  · exact absurd hwide (Nat.not_lt.2 hle)
  · exact .inl ⟨d, hd, Nat.lt_of_lt_of_le hwide hle⟩
  · exact .inr (.inl ⟨q, hq, Nat.lt_of_lt_of_le hwide hle⟩)
  · exact .inr (.inr ⟨v, x, hx, Nat.lt_of_lt_of_le hwide hle⟩)

/-- The type of an operand of the right size. -/
theorem Measured.sizes (hg : g.Measured p) (ho : g.Sized p o) (ht : g.typeOf? o = some ty) :
    g.Sizes p ty := by
  cases o with
  | value v =>
    obtain ⟨x, hx, rfl⟩ := Option.map_eq_some_iff.1 ht
    exact hg.types hx
  | lit c =>
    cases ht
    exact ho
  | undef ty =>
    cases ht
    exact ho

/-- More may be true of all operands. -/
theorem Bears.renew {G G' : Operand → Prop} {g₀ : Graph} (h : g.Bears G g₀)
    (hG : ∀ o, G o → G' o) : g.Bears G' g :=
  ⟨.refl g, fun hx => hG _ (h.types hx), fun hx ho => hG _ (h.operands hx ho),
    fun hb hbr ho => hG _ (h.conds hb hbr ho), fun hf => hG _ (h.forwards hf)⟩

/-- **The graph has grown**, and its operands are still of the right size. -/
structure Grows (p : Program) (g g' : Graph) : Prop where
  measured : g'.Measured p
  keeps : g.KeepsTypes g'

theorem Grows.refl (h : g.Measured p) : g.Grows p g := ⟨h, .refl g⟩

theorem Grows.trans (h : g.Grows p g') (h' : g'.Grows p g'') : g.Grows p g'' :=
  ⟨h'.measured, h.keeps.trans h'.keeps⟩

/-- A new instruction. -/
theorem Measured.withInstr (h : g.Measured p) (b : BlockId) (place : Nat) (origin : Origin)
    {i : Instr} (hty : 1 ≤ ty.width) (hops : ∀ o ∈ i.operands, g.Sized p o) :
    g.Grows p (g.withInstr b place ty origin i) := by
  have hk := g.keepsTypes_withInstr b place ty origin i
  have hnew : (g.withInstr b place ty origin i).Sizes p ty := by
    refine ⟨hty, .inr (.inr (.inr ?_))⟩
    refine ⟨g.nextValue, ⟨g.nextValue, ty, none, origin, some b, .instr i⟩, ?_, Nat.le_refl _⟩
    rw [value?_withInstr, if_pos rfl]
  refine ⟨?_, hk⟩
  have hb : (g.withInstr b place ty origin i).Bears
      ((g.withInstr b place ty origin i).Sized p) g := by
    refine Bears.addUses ?_ _ _
    refine Bears.updateBlock ?_ b fun y br o hy hbr ho => h.conds hy hbr ho |>.mono hk
    refine Bears.pushValue (h.renew fun o ho => Sized.mono ho hk) origin b hnew fun o ho => ?_
    exact (hops o ho).mono hk
  exact hb.renew fun _ ho => ho

end Graph

/-! ## 2. Emitting operators -/

namespace Emit

open BitFlow.Graph

variable {pt : Pointed} {a b c o : Operand} {ty : Ty} {site : String} {α : Type}

/-- The graph has grown. -/
def GrowsAt (p : Program) (pt q : Pointed) : Prop := pt.graph.Grows p q.graph

instance (p : Program) : Trans (GrowsAt p) (GrowsAt p) (GrowsAt p) := ⟨Grows.trans⟩

/-- **The computation makes only operands of the right size**, its answer among them. -/
abbrev Emits (p : Program) (pt : Pointed) (x : Emit α) (A : Graph → α → Prop) : Prop :=
  Advances (GrowsAt p) (fun q => A q.graph) x pt

/-- A look at the type of an operand. -/
theorem emits_operandType (h : pt.graph.Measured p) {f : Ty → Emit α} {A : Graph → α → Prop}
    (hf : ∀ ty, pt.graph.typeOf? o = some ty → Emits p pt (f ty) A) :
    Emits p pt ((liftM (Edit.operandType o) : Emit Ty) >>= f) A := by
  refine Leaves.seq (P := fun ty q => q = pt ∧ pt.graph.typeOf? o = some ty) ?_ ?_
  · refine (Leaves.focus_iff (Edit.operandType o)).2 ?_
    unfold Edit.operandType
    cases o with
    | lit c => exact ⟨rfl, rfl⟩
    | undef ty => exact ⟨rfl, rfl⟩
    | value v =>
      rw [Leaves.bind_iff]
      unfold Leaves
      rw [Edit.run_value]
      cases hx : pt.graph.value? v with
      | none => exact .refl h
      | some x => exact ⟨rfl, typeOf?_value hx⟩
  · rintro ty q ⟨rfl, hty⟩
    exact hf ty hty

/-- The types of several operands. -/
theorem emits_types (h : pt.graph.Measured p) {os : List Operand}
    {f : List Ty → Emit α} {A : Graph → α → Prop}
    (hf : ∀ tys, os.map pt.graph.typeOf? = tys.map some → Emits p pt (f tys) A) :
    Emits p pt ((os.mapM fun o => (liftM (Edit.operandType o) : Emit Ty)) >>= f) A := by
  induction os generalizing f with
  | nil => exact hf [] rfl
  | cons o os ih =>
    rw [List.mapM_cons, bind_assoc]
    refine emits_operandType h fun ty hty => ?_
    rw [bind_assoc]
    refine ih fun tys htys => ?_
    rw [pure_bind]
    refine hf (ty :: tys) ?_
    rw [List.map_cons, hty, htys]
    rfl

theorem emits_instr (h : pt.graph.Measured p) {op : Opcode} {os : List Operand}
    {portUse : Option PortUse} {origin : Origin} (hty : 1 ≤ ty.width)
    (hos : ∀ o ∈ os, pt.graph.Sized p o) :
    Emits p pt (instr ty op os portUse origin) fun _ _ => True := by
  refine .look (.bind (A := fun _ _ => True) ?_ fun v q hq _ => ⟨.refl hq.measured, trivial⟩)
  have hinsert : Advances (Graph.Grows p) (fun _ _ => True)
      (Edit.insertInstr pt.cursor.block pt.cursor.position ty origin ⟨op, os, portUse⟩)
      pt.graph := by
    unfold Edit.insertInstr
    refine Leaves.seq (P := fun _ g => g = pt.graph) ?_ ?_
    · unfold Leaves
      rw [Edit.run_block]
      cases pt.graph.block? pt.cursor.block with
      | none => exact .refl h
      | some y => rfl
    · rintro y _ rfl
      dsimp only
      split
      · exact Grows.refl h
      · exact ⟨h.withInstr pt.cursor.block _ origin hty hos, trivial⟩
  exact Advances.focus hinsert (fun g hg => hg) fun _ _ _ _ => trivial

/-- An operator is folded to a literal that the storage holds, or becomes an instruction. -/
theorem emits_apply (h : pt.graph.Measured p) {op : Opcode} {os : List Operand}
    (hty : 1 ≤ ty.width) (hos : ∀ o ∈ os, pt.graph.Sized p o) (hop : op.Yields ty) :
    Emits p pt (apply ty op os) (Sized p) := by
  unfold apply
  split
  · rename_i c hc
    refine .pure (.refl h) ?_
    obtain ⟨cs, -, hfold⟩ := Option.bind_eq_some_iff.1 hc
    have hholds : ty.holdsLiterals = true := by
      by_contra hn
      rw [fold_of_not_holdsLiterals op cs (Bool.not_eq_true _ ▸ hn)] at hfold
      cases hfold
    show pt.graph.Sizes p c.ty
    rw [ty_of_fold op hop hfold]
    exact sizes_of_holdsLiterals hholds
  · exact .bind (emits_instr h hty hos) fun v q hq _ => .pure (.refl hq.measured) trivial

theorem forall_mem_pair {P : Operand → Prop} (ha : P a) (hb : P b) : ∀ o ∈ [a, b], P o :=
  List.forall_mem_cons.2 ⟨ha, List.forall_mem_singleton.2 hb⟩

theorem emits_unary (h : pt.graph.Measured p) (ha : pt.graph.Sized p a) (op : Unary) :
    Emits p pt (unary (.unary op) a site) (Sized p) := by
  refine emits_operandType h fun ty hty => ?_
  exact emits_apply h (h.sizes ha hty).1 (List.forall_mem_singleton.2 ha) trivial

theorem emits_binary (h : pt.graph.Measured p) (ha : pt.graph.Sized p a) (hb : pt.graph.Sized p b)
    (op : Binary) : Emits p pt (binary (.binary op) a b site) (Sized p) := by
  refine emits_operandType h fun lt hlt => emits_operandType h fun rt _ => ?_
  dsimp only
  split
  · exact emits_apply h (h.sizes ha hlt).1 (forall_mem_pair ha hb) trivial
  · exact .throw (.refl h) _

theorem emits_compare (h : pt.graph.Measured p) (ha : pt.graph.Sized p a) (hb : pt.graph.Sized p b)
    (op : Relation) : Emits p pt (compare (.compare op) a b site) (Sized p) := by
  refine emits_operandType h fun lt _ => emits_operandType h fun rt _ => ?_
  split
  · exact emits_apply h (Nat.le_refl 1) (forall_mem_pair ha hb) rfl
  · exact .throw (.refl h) _

/-- Parts that are not empty are not empty together. -/
theorem one_le_joinedWidth {tys : List Ty} (hne : tys ≠ []) (h : ∀ t ∈ tys, 1 ≤ t.width) :
    1 ≤ joinedWidth tys := by
  rw [joinedWidth_eq]
  cases tys with
  | nil => exact absurd rfl hne
  | cons t tys =>
    have ht := h t List.mem_cons_self
    have hsum : t.width ≤ widthSum (t :: tys) := Nat.le_add_right _ _
    exact Nat.le_min.2 ⟨Nat.le_trans ht hsum, by decide⟩

theorem emits_concat (h : pt.graph.Measured p) {os : List Operand}
    (hos : ∀ o ∈ os, pt.graph.Sized p o) : Emits p pt (concat os site) (Sized p) := by
  refine emits_types h fun tys htys => ?_
  have hwidth : os ≠ [] → 1 ≤ joinedWidth tys := by
    intro hne
    refine one_le_joinedWidth (fun e => hne ?_) fun t ht => ?_
    · rw [e] at htys
      exact List.map_eq_nil_iff.1 htys
    · obtain ⟨o, ho, hto⟩ := List.mem_map.1 (htys ▸ List.mem_map_of_mem ht)
      exact (h.sizes (hos o ho) hto).1
  dsimp only
  split
  · exact .throw (.refl h) _
  · rename_i part t
    split
    · exact emits_apply h (hwidth (List.cons_ne_nil _ _)) hos trivial
    · exact .pure (.refl h) (hos part List.mem_cons_self)
  · rename_i hnil _
    exact emits_apply h (hwidth hnil) hos trivial

theorem emits_slice (h : pt.graph.Measured p) (ha : pt.graph.Sized p a) (msb lsb : Nat) :
    Emits p pt (slice a msb lsb site) (Sized p) := by
  refine emits_operandType h fun ty _ => ?_
  split
  · dsimp only
    split
    · exact .pure (.refl h) ha
    · exact emits_apply h (Nat.le_add_left 1 _) (List.forall_mem_singleton.2 ha) trivial
  · exact .throw (.refl h) _

theorem emits_index (h : pt.graph.Measured p) (ha : pt.graph.Sized p a) (hb : pt.graph.Sized p b) :
    Emits p pt (index a b site) (Sized p) := by
  unfold index
  split
  · exact emits_slice h ha _ _
  · exact emits_apply h (Nat.le_refl 1) (forall_mem_pair ha hb) rfl

theorem emits_select (h : pt.graph.Measured p) (hc : pt.graph.Sized p c) (ha : pt.graph.Sized p a)
    (hb : pt.graph.Sized p b) : Emits p pt (select c a b site) (Sized p) := by
  refine emits_operandType h fun ct _ => ?_
  dsimp only
  by_cases hbit : (!ct.isBit) = true
  · rw [if_pos hbit]
    exact .throw (.refl h) _
  rw [if_neg hbit]
  refine emits_operandType h fun ta hta => emits_operandType h fun tb _ => ?_
  by_cases ht : ta ≠ tb
  · rw [if_pos ht]
    exact .throw (.refl h) _
  rw [if_neg ht]
  split
  · refine .pure (.refl h) ?_
    split
    · exact ha
    · exact hb
  · have hos : ∀ o ∈ [c, a, b], pt.graph.Sized p o := by simpa using ⟨hc, ha, hb⟩
    exact .bind (emits_instr h (h.sizes ha hta).1 hos) fun v q hq _ =>
      .pure (.refl hq.measured) trivial

theorem emits_cast (h : pt.graph.Measured p) (ha : pt.graph.Sized p a) (ty : Ty) :
    Emits p pt (cast a ty site) (Sized p) := by
  unfold cast
  split
  · exact .throw (.refl h) _
  · rename_i hty
    refine emits_operandType h fun found _ => ?_
    split
    · exact .pure (.refl h) ha
    · exact emits_apply h (Nat.one_le_iff_ne_zero.2 hty) (List.forall_mem_singleton.2 ha) trivial

theorem emits_portRead (h : pt.graph.Measured p) (q : PortId) (hty : 1 ≤ ty.width) :
    Emits p pt (portRead q ty) (Sized p) :=
  .bind (emits_instr h hty fun o ho => by cases ho) fun _ _ hq _ =>
    .pure (.refl hq.measured) trivial

theorem emits_portWrite (h : pt.graph.Measured p) (q : PortId) (ha : pt.graph.Sized p a) :
    Emits p pt (portWrite q a) fun _ _ => True :=
  emits_operandType h fun _ hty => emits_instr h (h.sizes ha hty).1 (List.forall_mem_singleton.2 ha)

/-- **Two operands at one type**: a literal gets the type of the other side. -/
theorem emits_coerce (h : pt.graph.Measured p) (ha : pt.graph.Sized p a) (hb : pt.graph.Sized p b) :
    Emits p pt (coerce a b site) fun g r => g.Sized p r.1 ∧ g.Sized p r.2 := by
  refine emits_operandType h fun lt hlt => emits_operandType h fun rt hrt => ?_
  split
  · exact .pure (.refl h) ⟨ha, hb⟩
  · split
    · refine .pure (.refl h) ⟨ha, ?_⟩
      show pt.graph.Sizes p (Literal.resize _ lt).ty
      rw [Literal.ty_resize]
      exact h.sizes ha hlt
    · refine .pure (.refl h) ⟨?_, hb⟩
      show pt.graph.Sizes p (Literal.resize _ rt).ty
      rw [Literal.ty_resize]
      exact h.sizes hb hrt
    · split
      · exact .bind (emits_cast h hb lt) fun o q hq ho =>
          .pure (.refl hq.measured) ⟨ha.mono hq.keeps, ho⟩
      · exact .throw (.refl h) _

/-- **An operand at the type of its place**: a literal gets that type. -/
theorem emits_coerceTo (h : pt.graph.Measured p) (ha : pt.graph.Sized p a)
    (hty : pt.graph.Sizes p ty) : Emits p pt (coerceTo a ty site) (Sized p) := by
  refine emits_operandType h fun found _ => ?_
  split
  · exact .pure (.refl h) ha
  · split
    · refine .pure (.refl h) ?_
      show pt.graph.Sizes p (Literal.resize _ ty).ty
      rw [Literal.ty_resize]
      exact hty
    · split
      · exact emits_cast h ha ty
      · exact .throw (.refl h) _

/-- **An operand as a truth value**: it is compared with a zero of its own type. -/
theorem emits_condition (h : pt.graph.Measured p) (ha : pt.graph.Sized p a) :
    Emits p pt (condition a site) (Sized p) := by
  refine emits_operandType h fun ty hty => ?_
  split
  · exact .pure (.refl h) ha
  · have hzero : pt.graph.Sized p (.lit (.zero ty)) := h.sizes ha hty
    exact emits_compare h ha hzero .ne

end Emit

/-! ## 3. Operations on a bench -/

/-- **Graph and tables have grown**, and all their operands are still of the right size. -/
structure Tracked.Grows (p : Program) (s t : Tracked) : Prop where
  measured : t.Measured p
  keeps : s.graph.KeepsTypes t.graph

theorem Tracked.Grows.refl {s : Tracked} (h : s.Measured p) : s.Grows p s := ⟨h, .refl _⟩

theorem Tracked.Grows.trans {s t u : Tracked} (h : s.Grows p t) (h' : t.Grows p u) :
    s.Grows p u := ⟨h'.measured, h.keeps.trans h'.keeps⟩

/-- A change that makes no operands of its own. -/
theorem Tracked.Grows.of_bears {s t : Tracked} (ht : t.Bears (s.graph.Sized p) s.graph) :
    s.Grows p t := by
  have hk : s.graph.KeepsTypes t.graph := ht.graph.keeps
  exact ⟨⟨ht.graph.renew fun _ ho => ho.mono hk, fun ho => (ht.tables.defs ho).mono hk,
    fun hd => (ht.tables.vars hd).mono hk⟩, hk⟩

namespace Build

open BitFlow.Graph

variable {s t : Bench} {o : Operand} {site : String} {α : Type}

/-- The bench has grown. -/
def GrowsAt (p : Program) (s t : Bench) : Prop := s.tracked.Grows p t.tracked

instance (p : Program) : Trans (GrowsAt p) (GrowsAt p) (GrowsAt p) := ⟨Tracked.Grows.trans⟩

/-- **The computation makes only operands of the right size**, its answer among them. -/
abbrev Builds (p : Program) (s : Bench) (x : Build α) (A : Graph → α → Prop) : Prop :=
  Advances (GrowsAt p) (fun t => A t.graph) x s

/-- All operands of the tables are of the right size in a graph that has grown. -/
theorem grows_of_graph (h : s.tracked.Measured p) {g : Graph} (hg : s.graph.Grows p g)
    (c : Cursor) : GrowsAt p s { s with graph := g, cursor := c } :=
  ⟨⟨hg.measured, fun ho => (h.tables.defs ho).mono hg.keeps,
    fun hd => (h.tables.vars hd).mono hg.keeps⟩, hg.keeps⟩

theorem builds_emit (h : s.tracked.Measured p) {x : Emit α} {A : Graph → α → Prop}
    (hx : s.graph.Measured p → Emit.Emits p ⟨s.graph, s.cursor⟩ x A) :
    Builds p s (liftM x : Build α) A :=
  Advances.focus (hx h.graph) (fun q hq => grows_of_graph h hq q.cursor) fun _ _ _ ha => ha

theorem builds_track (h : s.tracked.Measured p) {x : Track α} {A : Graph → α → Prop}
    {B : α → Prop} (hx : Yields (Tracked.Bears (s.graph.Sized p) s.graph) B x)
    (hA : ∀ a g, s.graph.KeepsTypes g → B a → A g a) : Builds p s (liftM x : Build α) A := by
  refine (Leaves.focus_iff x).2 ((hx s.tracked h).mono (fun _ r hr => ?_) fun a r hr => ?_)
  · exact Tracked.Grows.of_bears (s := s.tracked) hr
  · exact ⟨Tracked.Grows.of_bears (s := s.tracked) hr.1, hA a r.graph hr.1.graph.keeps hr.2⟩

theorem builds_edit (h : s.tracked.Measured p) {x : Edit α} {A : α → Prop}
    (hx : Yields (Graph.Bears (s.graph.Sized p) · s.graph) A x) :
    Builds p s (liftM x : Build α) fun _ => A :=
  builds_track h (Track.yields_edit hx) fun _ _ _ ha => ha

theorem builds_declaration (h : s.tracked.Measured p) (x : VarId) :
    Builds p s (liftM (Track.declaration x) : Build Variable) fun g d => g.Sizes p d.ty :=
  builds_track h (Track.yields_declaration x) fun _ _ hk hd => Sizes.mono hd hk

theorem builds_bound (h : s.tracked.Measured p) (e : Expr) :
    Builds p s (bound e site) fun _ _ => True := by
  unfold bound
  split
  · exact .pure (.refl h) trivial
  · exact .throw (.refl h) _

theorem builds_refuseArrayBase (h : s.tracked.Measured p) (base : Expr) :
    Builds p s (refuseArrayBase base site) fun _ _ => True := by
  unfold refuseArrayBase
  split
  · refine .bind (builds_declaration h _) fun d t ht _ => ?_
    split
    · exact .throw (.refl ht.measured) _
    · exact .pure (.refl ht.measured) trivial
  · exact .pure (.refl h) trivial

theorem builds_markPartial (h : s.tracked.Measured p) (x : VarId) (o : Operand) :
    Builds p s (markPartial x o) fun _ _ => True := by
  cases o with
  | lit c => exact .pure (.refl h) trivial
  | undef ty => exact .pure (.refl h) trivial
  | value v =>
    refine builds_edit h (Edit.yields_updateValue v (fun y => ?_) fun y a ha hy => hy a ?_)
    · split <;> rfl
    · split at ha <;> exact ha

/-- What is recorded for a variable is of the right size. -/
theorem builds_record (h : s.tracked.Measured p) (x : VarId) (b : BlockId)
    (ho : s.graph.Sized p o) :
    Builds p s (do
      (liftM (Track.onTables (·.record x b o)) : Build Unit)
      (liftM (Track.nameAfter x o) : Build Unit)
      pure o) (Sized p) := by
  refine .bind (builds_track (A := fun _ _ => True) h
    (Track.yields_onTables fun r hr => hr.record x b ho) fun _ _ _ _ => trivial) fun _ t ht _ => ?_
  refine .bind (builds_track (A := fun _ _ => True) ht.measured (Track.yields_nameAfter x o)
    fun _ _ _ _ => trivial) fun _ u hu _ => ?_
  exact .pure (.refl hu.measured) ((ho.mono ht.keeps).mono hu.keeps)

end Build

/-! ## 4. Operations of a lowering -/

namespace Lower

open BitFlow.Build

variable {l : Lowering} {α : Type}

/-- The lowering has grown. -/
def GrowsAt (p : Program) (l m : Lowering) : Prop := l.tracked.Grows p m.tracked

instance (p : Program) : Trans (GrowsAt p) (GrowsAt p) (GrowsAt p) := ⟨Tracked.Grows.trans⟩

/-- **The computation makes only operands of the right size**, its answer among them. -/
abbrev Bounds (p : Program) (l : Lowering) (x : Lower α) (A : Graph → α → Prop) : Prop :=
  Advances (GrowsAt p) (fun m => A m.bench.graph) x l

theorem bounds_build {x : Build α} {A : Graph → α → Prop} (hx : Builds p l.bench x A) :
    Bounds p l (liftM x : Lower α) A := Advances.focus hx (fun _ ht => ht) fun _ _ _ ha => ha

theorem bounds_edit (h : l.tracked.Measured p) {x : Edit α} {A : α → Prop}
    (hx : Yields (Graph.Bears (l.bench.graph.Sized p) · l.bench.graph) A x) :
    Bounds p l (liftM x : Lower α) fun _ => A := bounds_build (builds_edit h hx)

end Lower

end BitFlow
