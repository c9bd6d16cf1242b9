import BitFlow.Proofs.Constant.Twin
import BitFlow.Proofs.Typing.Program

/-!
# A known variable and one that is read at run time

An expression is lowered in two states. In one of them a variable holds a literal at the cursor, in
the other one a datum that arrives at a port; when that datum is the literal, the two lowerings
should mean the same. They do, as long as they convert the same operands: which one of two operands
of different types is converted depends on which of them is a literal.

Main statements: `Build.lowerExpr_of_known` -- the agreement; `Build.lowerExpr_known_side` -- where
the two lowerings part.
-/

namespace BitFlow

/-! ## 1. The two states -/

/-- **Two benches that differ only in what `x` holds at the cursor**: `a` in the first one, `b` in
    the second. -/
structure Bench.DifferAt (x : VarId) (a b : Operand) (s t : Bench) : Prop where
  graph : t.graph = s.graph
  cursor : t.cursor = s.cursor
  vars : t.reaching.vars = s.reaching.vars
  left : s.reaching.defs.get? (s.cursor.block, x) = some a
  right : t.reaching.defs.get? (s.cursor.block, x) = some b
  others : ∀ q, q ≠ (s.cursor.block, x) → t.reaching.defs.get? q = s.reaching.defs.get? q

/-- **In `s` the variable `x` is known to hold `c`, in `t` it holds the datum `v` of a port**, which
    is `c` as well. All data are of the types of their reads, and the widths of all variables fit in
    a word. -/
structure Alternative (inputs : ValueId → Option Literal) (x : VarId) (c : Literal)
    (v : ValueId) (s t : Bench) : Prop where
  left : s.Consistent
  right : t.Consistent
  differ : s.DifferAt x (.lit c) (.value v) t
  port : ∃ i q, s.graph.instr? v = some i ∧ i.instr.portUse = some ⟨q, .read⟩
  datum : inputs v = some c
  inputs : InputsTyped inputs s.graph
  widths : ∀ {y d}, variableById? s.reaching.vars y = some d → d.ty.width ≤ wordMax

/-- What is an instruction is no phi. -/
theorem Graph.phi?_eq_none_of_instr {g : Graph} {v : ValueId} {i : OwnedInstr}
    (h : g.instr? v = some i) : g.phi? v = none := by
  obtain ⟨x, hx, -, -, hk⟩ := Graph.instr?_eq_some.1 h
  cases hp : g.phi? v with
  | none => rfl
  | some p =>
    obtain ⟨x', hx', -, -, hk'⟩ := Graph.phi?_eq_some.1 hp
    cases hx.symm.trans hx'
    cases hk.symm.trans hk'

/-- What has a value is no phi and not undefined. -/
theorem Graph.Denotes.no_phi {g : Graph} {inputs : ValueId → Option Literal} {o : Operand}
    {c : Literal} (h : g.Denotes inputs o c) :
    (∀ v, o = .value v → g.phi? v = none) ∧ ∀ ty, o ≠ .undef ty := by
  refine ⟨fun v e => ?_, fun ty e => ?_⟩
  · subst e
    obtain ⟨i, hi⟩ := h.exists_instr
    exact Graph.phi?_eq_none_of_instr hi
  · subst e
    exact Graph.not_denotes_undef h

namespace Alternative

variable {inputs : ValueId → Option Literal} {x : VarId} {c : Literal} {v : ValueId}
  {s₀ t₀ s t s' t' : Bench} {a b : Operand}

/-- The walks in search of another variable are the same in both states. -/
theorem walk (h : Alternative inputs x c v s₀ t₀) {y : VarId} (hy : y ≠ x) {π : List BlockId}
    {e : Option Operand} (hw : s₀.tracked.Walk y π e) : t₀.tracked.Walk y π e := by
  have hdefs : ∀ b, t₀.reaching.defs.get? (b, y) = s₀.reaching.defs.get? (b, y) :=
    fun b => h.differ.others _ fun e => hy (Prod.mk.inj e).2
  have hg := h.differ.graph
  induction hw with
  | @found b o ho =>
    refine .found ?_
    show (t₀.reaching.defs.get? (b, y)).map t₀.graph.resolve = some o
    rw [hdefs, hg]
    exact ho
  | stuck hn hs =>
    refine .stuck ((hdefs _).trans hn) ?_
    show t₀.graph.isSealed _ = false
    rw [hg]
    exact hs
  | @back b q π e hn hs hq _ ih =>
    refine .back ((hdefs _).trans hn) ?_ ?_ ih
    · show t₀.graph.isSealed b = true
      rw [hg]
      exact hs
    · show q ∈ t₀.graph.preds b
      rw [hg]
      exact hq

theorem reached_left (h : Alternative inputs x c v s₀ t₀) :
    s₀.tracked.reached x s₀.cursor.block = some (.lit c) := by
  unfold Tracked.reached
  rw [show s₀.tracked.reaching.defs.get? (s₀.cursor.block, x) = _ from h.differ.left, Option.map_some]
  exact congrArg some (h.left.idle.sane.steady.resolve_of_anchors (Graph.anchors_lit _ c))

theorem reached_right (h : Alternative inputs x c v s₀ t₀) :
    t₀.tracked.reached x t₀.cursor.block = some (.value v) := by
  obtain ⟨i, q, hi, -⟩ := h.port
  rw [← h.differ.graph] at hi
  unfold Tracked.reached
  rw [h.differ.cursor, show t₀.tracked.reaching.defs.get? (s₀.cursor.block, x) = _ from
    h.differ.right, Option.map_some]
  exact congrArg some (h.right.idle.sane.steady.forwarding.resolve_of_attached
    (Graph.attached_of_instr? hi))

/-- The value of the datum is the literal. -/
theorem eq_of_denotes (h : Alternative inputs x c v s₀ t₀) (ht : Led t₀ t) {k : Literal}
    (hk : t.graph.Denotes inputs (.value v) k) : k = c := by
  obtain ⟨i, q, hi, hu⟩ := h.port
  rw [← h.differ.graph] at hi
  have hknown : t₀.graph.Knows (.value v) := fun w hw =>
    (Operand.value.inj hw) ▸ (Graph.attached_of_instr? hi).index_lt
  rw [ht.grown.denotes h.right.anchored hknown] at hk
  exact Option.some.inj ((hk.input hi hu).symm.trans h.datum)

/-- **A variable is read in both states.** -/
theorem read (h : Alternative inputs x c v s₀ t₀) (hs : Led s₀ s) (ht : Led t₀ t) {y : VarId}
    {site : String} (hA : (Build.variableRead y site).run s = .ok a s')
    (hB : (Build.variableRead y site).run t = .ok b t') : Twin inputs s₀ t₀ s t a s' b t' := by
  obtain ⟨hl, hg, hr⟩ := (hs.read y site).of_ok hA
  obtain ⟨hl', hg', hr'⟩ := (ht.read y site).of_ok hB
  obtain ⟨d, hd, hty⟩ := hl.consistent.intact.reached hr
  obtain ⟨d', hd', hty'⟩ := hl'.consistent.intact.reached hr'
  rw [show s'.tracked.reaching.vars = s₀.reaching.vars from hl.vars] at hd
  rw [show t'.tracked.reaching.vars = t₀.reaching.vars from hl'.vars, h.differ.vars] at hd'
  cases hd.symm.trans hd'
  refine ⟨⟨hl, hl', hg, hg'⟩, d.ty, hty, hty', hl.consistent.idle.sane.anchors_reached hr,
    hl'.consistent.idle.sane.anchors_reached hr', h.widths hd, fun {k k'} hk hk' => ?_⟩
  by_cases hy : y = x
  · subst hy
    rw [hl.traced.eq_of_reached h.reached_left hr] at hk
    rw [hl'.traced.eq_of_reached h.reached_right hr'] at hk'
    exact hk.eq_of_lit.trans (h.eq_of_denotes hl' hk').symm
  · have hback := hl.traced.defs hr
    have hback' := hl'.traced.defs hr'
    rw [h.differ.cursor] at hback'
    -- with a value in both states, the two walks back have ended at one definition
    obtain ⟨hknown, rfl⟩ := hback.unique hback' (fun _ _ => h.walk hy) hk.no_phi.1 hk'.no_phi.1
      hk.no_phi.2
    rw [hl.grown.denotes h.left.anchored hknown] at hk
    have hknown' : t₀.graph.Knows a := by
      rw [h.differ.graph]
      exact hknown
    rw [hl'.grown.denotes h.right.anchored hknown', h.differ.graph] at hk'
    exact hk.unique hk'

theorem inputs_right (h : Alternative inputs x c v s₀ t₀) : InputsTyped inputs t₀.graph := by
  rw [h.differ.graph]
  exact h.inputs

end Alternative

/-! ## 2. Which sides are converted -/

/-- A computation that gave an answer ran through all its parts. -/
theorem run_bind_ok {ε σ α β : Type} {x : EStateM ε σ α} {f : α → EStateM ε σ β} {s u : σ} {b : β}
    (h : (x >>= f).run s = .ok b u) : ∃ a t, x.run s = .ok a t ∧ (f a).run t = .ok b u := by
  have hends : Ends (x >>= f) s (fun _ => True) fun b' u' => b' = b ∧ u' = u →
      ∃ a t, x.run s = .ok a t ∧ (f a).run t = .ok b u := by
    rw [Ends.bind_iff]
    refine Ends.of_run fun a t ha => Ends.of_run fun b' u' hb => ?_
    rintro ⟨rfl, rfl⟩
    exact ⟨a, t, ha, hb⟩
  exact hends.of_ok h ⟨rfl, rfl⟩

namespace Build

/-- The sides that are converted when an expression is lowered. -/
def sides (e : Expr) (s : Bench) : List Side := (conversions e s).map Conversion.side

/-- The sides that are converted when some expressions are lowered. -/
def sidesAll (es : List Expr) (s : Bench) : List Side := (conversionsAll es s).map Conversion.side

section Sides

variable {s s₁ s₂ s₃ s₄ : Bench} {a b k k' : Operand} {l r e : Expr} {es : List Expr}

theorem sides_binary (op : Binary) (hl : (lowerExpr l).run s = .ok a s₁)
    (hr : (lowerExpr r).run s₁ = .ok b s₂) :
    sides (.binary op l r) s = sides l s ++ (sides r s₁ ++
      if op.isShift then [] else s₂.graph.convertedSides .operands a b) := by
  unfold sides
  rw [conversions, after_of_ok hl, after_of_ok hr, List.map_append, List.map_append]
  split <;> rfl

theorem sides_compare (op : Relation) (hl : (lowerExpr l).run s = .ok a s₁)
    (hr : (lowerExpr r).run s₁ = .ok b s₂) :
    sides (.compare op l r) s =
      sides l s ++ (sides r s₁ ++ s₂.graph.convertedSides .operands a b) := by
  unfold sides
  rw [conversions, after_of_ok hl, after_of_ok hr, List.map_append, List.map_append]
  rfl

theorem sides_bit (hl : (lowerExpr l).run s = .ok a s₁) :
    sides (.bit l r) s = sides l s ++ sides r s₁ := by
  unfold sides
  rw [conversions, after_of_ok hl, List.map_append]

theorem sides_ternary (hk : (lowerExpr e).run s = .ok k s₁)
    (hk' : (liftM (Emit.condition k (Expr.ternary e l r).describe) : Build Operand).run s₁ = .ok k' s₂)
    (hl : (lowerExpr l).run s₂ = .ok a s₃) (hr : (lowerExpr r).run s₃ = .ok b s₄) :
    sides (.ternary e l r) s = sides e s ++ (sides l s₂ ++ (sides r s₃ ++
      s₄.graph.convertedSides (.arms k'.takenArm) a b)) := by
  unfold sides
  rw [conversions, after_of_ok hk, after_of_ok hk', after_of_ok hl, after_of_ok hr,
    List.map_append, List.map_append, List.map_append]
  rfl

theorem sidesAll_cons (hl : (lowerExpr e).run s = .ok a s₁) :
    sidesAll (e :: es) s = sides e s ++ sidesAll es s₁ := by
  unfold sidesAll sides
  rw [conversionsAll, after_of_ok hl, List.map_append]

/-- What emitting has left. -/
theorem emitted_of_run {α : Type} {x : Emit α} {Q : α → Pointed → Prop} {o : α}
    (hx : Ends x ⟨s.graph, s.cursor⟩ (fun _ => True) Q) (run : (liftM x : Build α).run s = .ok o s₁) :
    ∃ q, s₁ = s.moved q ∧ Q o q := by
  have h : Ends (liftM x : Build α) s (fun _ => True) fun o s₁ => ∃ q, s₁ = s.moved q ∧ Q o q :=
    (ends_emit x).2 (hx.mono fun _ q h => ⟨q, rfl, h⟩)
  exact h.of_ok run

end Sides

end Build

/-! ## 3. One operator in both lowerings -/

section Operators

variable {inputs : ValueId → Option Literal} {s₀ t₀ s t s₁ t₁ s₂ t₂ s' t' : Bench}
  {a a' b b' o o' : Operand} {ty : Ty} {site : String}

/-- What follows on operands that were computed before. -/
theorem Onward.twin (h : Onward s₀ t₀ s t s₁ t₁) (h' : Twin inputs s₀ t₀ s₁ t₁ a s' b t') :
    Twin inputs s₀ t₀ s t a s' b t' := ⟨h.trans h'.onward, h'.agree⟩

/-- The first of two operands when the second one is there as well. -/
theorem Twin.both (h : Twin inputs s₀ t₀ s t a s₁ a' t₁)
    (h' : Twin inputs s₀ t₀ s₁ t₁ b s₂ b' t₂) :
    Onward s₀ t₀ s t s₂ t₂ ∧ (∃ ty, Agree inputs s₂.graph t₂.graph ty a a') ∧
      ∃ ty, Agree inputs s₂.graph t₂.graph ty b b' := by
  obtain ⟨ty, ha⟩ := h.agree
  exact ⟨h.onward.trans h'.onward, ⟨ty, ha.onward h.onward.left h.onward.right h'.onward⟩, h'.agree⟩

/-- **Two operands are computed and meet at one type**, in both lowerings. -/
theorem Twin.met (h : Twin inputs s₀ t₀ s t a s₁ a' t₁)
    (h' : Twin inputs s₀ t₀ s₁ t₁ b s₂ b' t₂) {r r' : Operand × Operand} {m m' : Meeting}
    {u w : List Side}
    (hsides : s₂.graph.convertedSides m a b ++ u = t₂.graph.convertedSides m' a' b' ++ w)
    (hA : (liftM (Emit.coerce a b site) : Build (Operand × Operand)).run s₂ = .ok r s')
    (hB : (liftM (Emit.coerce a' b' site) : Build (Operand × Operand)).run t₂ = .ok r' t') :
    Onward s₀ t₀ s t s' t' ∧ u = w ∧ ∃ ty, Agree inputs s'.graph t'.graph ty r.1 r'.1 ∧
      Agree inputs s'.graph t'.graph ty r.2 r'.2 := by
  obtain ⟨hon, ⟨ta, ha⟩, tb, hb⟩ := h.both h'
  obtain ⟨q, rfl, hr⟩ := Build.emitted_of_run Emit.ends_coerce hA
  obtain ⟨q', rfl, hr'⟩ := Build.emitted_of_run Emit.ends_coerce hB
  obtain ⟨hon', hu, hagree⟩ := Twin.coerced hon.left hon.right ha hb hr hr' hsides
  exact ⟨hon.trans hon', hu, hagree⟩

theorem Twin.unary (hs : Led s₀ s) (ht : Led t₀ t) (op : Unary)
    (h : Agree inputs s.graph t.graph ty a a')
    (hA : (liftM (Emit.unary (.unary op) a site) : Build Operand).run s = .ok o s')
    (hB : (liftM (Emit.unary (.unary op) a' site) : Build Operand).run t = .ok o' t') :
    Twin inputs s₀ t₀ s t o s' o' t' := by
  obtain ⟨q, rfl, ta, hta, happ⟩ := Build.emitted_of_run Emit.ends_unary hA
  obtain ⟨q', rfl, tb, htb, happ'⟩ := Build.emitted_of_run Emit.ends_unary hB
  cases h.left.symm.trans hta
  cases h.right.symm.trans htb
  exact .applied hs ht happ happ' (.one h) rfl trivial h.width

theorem Twin.binary (hs : Led s₀ s) (ht : Led t₀ t) (op : Binary) {tb : Ty}
    (h : Agree inputs s.graph t.graph ty a a') (h' : Agree inputs s.graph t.graph tb b b')
    (htb : op.isShift = true ∨ tb = ty)
    (hA : (liftM (Emit.binary (.binary op) a b site) : Build Operand).run s = .ok o s')
    (hB : (liftM (Emit.binary (.binary op) a' b' site) : Build Operand).run t = .ok o' t') :
    Twin inputs s₀ t₀ s t o s' o' t' := by
  obtain ⟨q, rfl, t₁, -, ht₁, -, -, happ⟩ := Build.emitted_of_run Emit.ends_binary hA
  obtain ⟨q', rfl, t₂, -, ht₂, -, -, happ'⟩ := Build.emitted_of_run Emit.ends_binary hB
  cases h.left.symm.trans ht₁
  cases h.right.symm.trans ht₂
  exact .applied hs ht happ happ' (.two h h') ⟨rfl, htb⟩ trivial h.width

theorem Twin.compare (hs : Led s₀ s) (ht : Led t₀ t) (op : Relation)
    (h : Agree inputs s.graph t.graph ty a a') (h' : Agree inputs s.graph t.graph ty b b')
    (hA : (liftM (Emit.compare (.compare op) a b site) : Build Operand).run s = .ok o s')
    (hB : (liftM (Emit.compare (.compare op) a' b' site) : Build Operand).run t = .ok o' t') :
    Twin inputs s₀ t₀ s t o s' o' t' := by
  obtain ⟨q, rfl, -, -, -, -, -, happ⟩ := Build.emitted_of_run Emit.ends_compare hA
  obtain ⟨q', rfl, -, -, -, -, -, happ'⟩ := Build.emitted_of_run Emit.ends_compare hB
  exact .applied hs ht happ happ' (.two h h') ⟨rfl, rfl⟩ rfl (by decide)

theorem Twin.condition (hs : Led s₀ s) (ht : Led t₀ t)
    (h : Agree inputs s.graph t.graph ty a a')
    (hA : (liftM (Emit.condition a site) : Build Operand).run s = .ok o s')
    (hB : (liftM (Emit.condition a' site) : Build Operand).run t = .ok o' t') :
    Twin inputs s₀ t₀ s t o s' o' t' := by
  obtain ⟨q, rfl, htest⟩ := Build.emitted_of_run Emit.ends_condition hA
  obtain ⟨q', rfl, htest'⟩ := Build.emitted_of_run Emit.ends_condition hB
  exact .tested hs ht h htest htest'

end Operators

/-! ## 4. The agreement -/

namespace Expr

mutual

/-- Whether the type of every conversion has a width that fits in a word. -/
def narrow : Expr → Bool
  | .lit _ => true
  | .var _ => true
  | .unary _ arg => arg.narrow
  | .binary _ lhs rhs => lhs.narrow && rhs.narrow
  | .compare _ lhs rhs => lhs.narrow && rhs.narrow
  | .concat parts => narrowAll parts
  | .bit base pos => base.narrow && pos.narrow
  | .range base _ _ => base.narrow
  | .ternary cond yes no => cond.narrow && yes.narrow && no.narrow
  | .cast arg ty => arg.narrow && decide (ty.width ≤ wordMax)

/-- Whether the types of all conversions in some expressions have widths that fit in a word. -/
def narrowAll : List Expr → Bool
  | [] => true
  | e :: es => e.narrow && narrowAll es

end

end Expr

/-- Operands of both lowerings that were carried on and agree one by one. -/
structure Twins (inputs : ValueId → Option Literal) (s₀ t₀ s t : Bench)
    (as : List Operand) (s' : Bench) (bs : List Operand) (t' : Bench) : Prop where
  onward : Onward s₀ t₀ s t s' t'
  agree : ∃ tys, AgreeAll inputs s'.graph t'.graph tys as bs

namespace Build

theorem eq_of_run_refuseArrayBase {base : Expr} {site : String} {s t : Bench} {r : Unit}
    (h : (refuseArrayBase base site).run s = .ok r t) : t = s := by
  have hends : Ends (refuseArrayBase base site) s (fun _ => True) fun _ t => t = s :=
    ends_refuseArrayBase tolerates_all rfl
  exact hends.of_ok h

theorem of_run_bound {e : Expr} {site : String} {s t : Bench} {n : Nat}
    (h : (bound e site).run s = .ok n t) : e.position? = some n ∧ t = s := by
  have hends : Ends (bound e site) s (fun _ => True) fun n t => e.position? = some n ∧ t = s :=
    ends_bound tolerates_all fun n hn => ⟨hn, rfl⟩
  exact hends.of_ok h

/-- One bit was lowered: the base and then the position. -/
theorem run_bit {base pos : Expr} {s s' : Bench} {o : Operand}
    (h : (lowerExpr (.bit base pos)).run s = .ok o s') :
    ∃ a s₁ k s₂, (lowerExpr base).run s = .ok a s₁ ∧ (lowerExpr pos).run s₁ = .ok k s₂ ∧
      (liftM (Emit.index a k (Expr.bit base pos).describe) : Build Operand).run s₂ = .ok o s' := by
  rw [lowerExpr] at h
  obtain ⟨_, s₀, h₀, h⟩ := run_bind_ok h
  rw [eq_of_run_refuseArrayBase h₀] at h
  obtain ⟨a, s₁, ha, h⟩ := run_bind_ok h
  obtain ⟨k, s₂, hk, h⟩ := run_bind_ok h
  exact ⟨a, s₁, k, s₂, ha, hk, h⟩

/-- A range of bits was lowered: the base, under bounds that are constant. -/
theorem run_range {base msb lsb : Expr} {s s' : Bench} {o : Operand}
    (h : (lowerExpr (.range base msb lsb)).run s = .ok o s') :
    ∃ a s₁ hi lo, (lowerExpr base).run s = .ok a s₁ ∧ msb.position? = some hi ∧
      lsb.position? = some lo ∧
      (liftM (Emit.slice a hi lo (Expr.range base msb lsb).describe) : Build Operand).run s₁ =
        .ok o s' := by
  rw [lowerExpr] at h
  obtain ⟨_, s₀, h₀, h⟩ := run_bind_ok h
  rw [eq_of_run_refuseArrayBase h₀] at h
  obtain ⟨a, s₁, ha, h⟩ := run_bind_ok h
  obtain ⟨hi, s₂, hhi, h⟩ := run_bind_ok h
  obtain ⟨hhi, hs₂⟩ := of_run_bound hhi
  obtain ⟨lo, s₃, hlo, h⟩ := run_bind_ok h
  obtain ⟨hlo, hs₃⟩ := of_run_bound hlo
  rw [hs₃, hs₂] at h
  exact ⟨a, s₁, hi, lo, ha, hhi, hlo, h⟩

theorem of_run_literal {c : Literal} {site : String} {s t : Bench} {o : Operand}
    (h : (literal c site).run s = .ok o t) : o = .lit c ∧ t = s ∧ c.ty.holdsLiterals = true := by
  have hends : Ends (literal c site) s (fun _ => True) fun o t =>
      o = .lit c ∧ t = s ∧ c.ty.holdsLiterals = true := by
    unfold literal
    rw [Ends.bind_iff, Ends.get_iff]
    dsimp only
    split
    · rename_i ha
      exact ⟨rfl, rfl, (Bool.and_eq_true _ _ ▸ ha).1⟩
    · trivial
  exact hends.of_ok h

end Build

namespace Alternative

variable {inputs : ValueId → Option Literal} {x : VarId} {c : Literal} {v : ValueId}
  {s₀ t₀ : Bench}

mutual

/-- **An expression is lowered in both states, and the same sides are converted**: the operands
    agree. The sides that are converted later are the same again. -/
theorem lowerExpr (h : Alternative inputs x c v s₀ t₀) (e : Expr) {s t s' t' : Bench}
    {a b : Operand} {u w : List Side} (hs : Led s₀ s) (ht : Led t₀ t) (hn : e.narrow = true)
    (hsides : Build.sides e s ++ u = Build.sides e t ++ w)
    (hA : (Build.lowerExpr e).run s = .ok a s') (hB : (Build.lowerExpr e).run t = .ok b t') :
    Twin inputs s₀ t₀ s t a s' b t' ∧ u = w := by
  match e with
  | .lit k =>
    rw [Build.lowerExpr_lit] at hA hB
    obtain ⟨rfl, rfl, hk⟩ := Build.of_run_literal hA
    obtain ⟨rfl, rfl, -⟩ := Build.of_run_literal hB
    have hw : k.ty.width ≤ wordMax :=
      Nat.le_trans ((Ty.holdsLiterals_iff _).1 hk).2 (by decide)
    exact ⟨.refl hs ht (agree_lit k hw), hsides⟩
  | .var y =>
    rw [Build.lowerExpr_var] at hA hB
    exact ⟨h.read hs ht hA hB, hsides⟩
  | .unary op arg =>
    rw [Build.lowerExpr] at hA hB
    obtain ⟨a₁, s₁, hA₁, hA⟩ := run_bind_ok hA
    obtain ⟨b₁, t₁, hB₁, hB⟩ := run_bind_ok hB
    obtain ⟨htwin, hu⟩ := h.lowerExpr arg hs ht hn hsides hA₁ hB₁
    obtain ⟨ty, hagree⟩ := htwin.agree
    exact ⟨htwin.onward.twin (.unary htwin.onward.left htwin.onward.right op hagree hA hB), hu⟩
  | .binary op lhs rhs =>
    rw [Build.lowerExpr] at hA hB
    obtain ⟨a₁, s₁, hA₁, hA⟩ := run_bind_ok hA
    obtain ⟨a₂, s₂, hA₂, hA⟩ := run_bind_ok hA
    obtain ⟨⟨a₃, a₄⟩, s₃, hA₃, hA⟩ := run_bind_ok hA
    obtain ⟨b₁, t₁, hB₁, hB⟩ := run_bind_ok hB
    obtain ⟨b₂, t₂, hB₂, hB⟩ := run_bind_ok hB
    obtain ⟨⟨b₃, b₄⟩, t₃, hB₃, hB⟩ := run_bind_ok hB
    obtain ⟨hn₁, hn₂⟩ := Bool.and_eq_true_iff.1 hn
    rw [Build.sides_binary op hA₁ hA₂, Build.sides_binary op hB₁ hB₂, List.append_assoc,
      List.append_assoc, List.append_assoc, List.append_assoc] at hsides
    obtain ⟨hl, hsides⟩ := h.lowerExpr lhs hs ht hn₁ hsides hA₁ hB₁
    obtain ⟨hr, hsides⟩ := h.lowerExpr rhs hl.onward.left hl.onward.right hn₂ hsides hA₂ hB₂
    unfold Build.align at hA₃ hB₃
    by_cases hshift : op.isShift = true
    · rw [if_pos hshift, if_pos hshift] at hsides
      rw [if_pos hshift] at hA₃ hB₃
      cases hA₃
      cases hB₃
      obtain ⟨hon, ⟨ta, ha⟩, tb, hb⟩ := hl.both hr
      exact ⟨hon.twin (.binary hon.left hon.right op ha hb (.inl hshift) hA hB), hsides⟩
    · rw [if_neg hshift, if_neg hshift] at hsides
      rw [if_neg hshift] at hA₃ hB₃
      obtain ⟨hon, hu, ty, ha, hb⟩ := hl.met hr hsides hA₃ hB₃
      exact ⟨hon.twin (.binary hon.left hon.right op ha hb (.inr rfl) hA hB), hu⟩
  | .compare op lhs rhs =>
    rw [Build.lowerExpr] at hA hB
    obtain ⟨a₁, s₁, hA₁, hA⟩ := run_bind_ok hA
    obtain ⟨a₂, s₂, hA₂, hA⟩ := run_bind_ok hA
    obtain ⟨⟨a₃, a₄⟩, s₃, hA₃, hA⟩ := run_bind_ok hA
    obtain ⟨b₁, t₁, hB₁, hB⟩ := run_bind_ok hB
    obtain ⟨b₂, t₂, hB₂, hB⟩ := run_bind_ok hB
    obtain ⟨⟨b₃, b₄⟩, t₃, hB₃, hB⟩ := run_bind_ok hB
    obtain ⟨hn₁, hn₂⟩ := Bool.and_eq_true_iff.1 hn
    rw [Build.sides_compare op hA₁ hA₂, Build.sides_compare op hB₁ hB₂, List.append_assoc,
      List.append_assoc, List.append_assoc, List.append_assoc] at hsides
    obtain ⟨hl, hsides⟩ := h.lowerExpr lhs hs ht hn₁ hsides hA₁ hB₁
    obtain ⟨hr, hsides⟩ := h.lowerExpr rhs hl.onward.left hl.onward.right hn₂ hsides hA₂ hB₂
    obtain ⟨hon, hu, ty, ha, hb⟩ := hl.met hr hsides hA₃ hB₃
    exact ⟨hon.twin (.compare hon.left hon.right op ha hb hA hB), hu⟩
  | .concat parts =>
    rw [Build.lowerExpr] at hA hB
    obtain ⟨os, s₁, hA₁, hA⟩ := run_bind_ok hA
    obtain ⟨os', t₁, hB₁, hB⟩ := run_bind_ok hB
    obtain ⟨⟨hon, tys, hall⟩, hu⟩ := h.lowerExprs parts hs ht hn hsides hA₁ hB₁
    obtain ⟨q, rfl, hjoin⟩ := Build.emitted_of_run Emit.ends_concat hA
    obtain ⟨q', rfl, hjoin'⟩ := Build.emitted_of_run Emit.ends_concat hB
    exact ⟨hon.twin (.joined hon.left hon.right hall hjoin hjoin'), hu⟩
  | .bit base pos =>
    obtain ⟨a₁, s₁, k, s₂, hA₁, hA₂, hA⟩ := Build.run_bit hA
    obtain ⟨b₁, t₁, k', t₂, hB₁, hB₂, hB⟩ := Build.run_bit hB
    obtain ⟨hn₁, hn₂⟩ := Bool.and_eq_true_iff.1 hn
    rw [Build.sides_bit hA₁, Build.sides_bit hB₁, List.append_assoc, List.append_assoc] at hsides
    obtain ⟨hl, hsides⟩ := h.lowerExpr base hs ht hn₁ hsides hA₁ hB₁
    obtain ⟨hr, hu⟩ := h.lowerExpr pos hl.onward.left hl.onward.right hn₂ hsides hA₂ hB₂
    obtain ⟨hon, ⟨ta, ha⟩, tk, hk⟩ := hl.both hr
    obtain ⟨q, rfl, hidx⟩ := Build.emitted_of_run Emit.ends_index hA
    obtain ⟨q', rfl, hidx'⟩ := Build.emitted_of_run Emit.ends_index hB
    exact ⟨hon.twin (.indexed hon.left hon.right h.inputs h.inputs_right ha hk hidx hidx'), hu⟩
  | .range base msb lsb =>
    obtain ⟨a₁, s₁, hi, lo, hA₁, hhi, hlo, hA⟩ := Build.run_range hA
    obtain ⟨b₁, t₁, hi', lo', hB₁, hhi', hlo', hB⟩ := Build.run_range hB
    cases hhi.symm.trans hhi'
    cases hlo.symm.trans hlo'
    obtain ⟨htwin, hu⟩ := h.lowerExpr base hs ht hn hsides hA₁ hB₁
    obtain ⟨ty, hagree⟩ := htwin.agree
    obtain ⟨q, rfl, hsl⟩ := Build.emitted_of_run Emit.ends_slice hA
    obtain ⟨q', rfl, hsl'⟩ := Build.emitted_of_run Emit.ends_slice hB
    exact ⟨htwin.onward.twin
      (.sliced htwin.onward.left htwin.onward.right hagree hsl hsl'), hu⟩
  | .ternary cond yes no =>
    rw [Build.lowerExpr] at hA hB
    obtain ⟨k, s₁, hA₁, hA⟩ := run_bind_ok hA
    obtain ⟨k₁, s₂, hA₂, hA⟩ := run_bind_ok hA
    obtain ⟨a₁, s₃, hA₃, hA⟩ := run_bind_ok hA
    obtain ⟨a₂, s₄, hA₄, hA⟩ := run_bind_ok hA
    obtain ⟨⟨a₃, a₄⟩, s₅, hA₅, hA⟩ := run_bind_ok hA
    obtain ⟨k', t₁, hB₁, hB⟩ := run_bind_ok hB
    obtain ⟨k₁', t₂, hB₂, hB⟩ := run_bind_ok hB
    obtain ⟨b₁, t₃, hB₃, hB⟩ := run_bind_ok hB
    obtain ⟨b₂, t₄, hB₄, hB⟩ := run_bind_ok hB
    obtain ⟨⟨b₃, b₄⟩, t₅, hB₅, hB⟩ := run_bind_ok hB
    obtain ⟨hn, hn₃⟩ := Bool.and_eq_true_iff.1 hn
    obtain ⟨hn₁, hn₂⟩ := Bool.and_eq_true_iff.1 hn
    rw [Build.sides_ternary hA₁ hA₂ hA₃ hA₄, Build.sides_ternary hB₁ hB₂ hB₃ hB₄,
      List.append_assoc, List.append_assoc, List.append_assoc, List.append_assoc,
      List.append_assoc, List.append_assoc] at hsides
    obtain ⟨hk, hsides⟩ := h.lowerExpr cond hs ht hn₁ hsides hA₁ hB₁
    obtain ⟨tk, hagree⟩ := hk.agree
    have hk₁ := Twin.condition hk.onward.left hk.onward.right hagree hA₂ hB₂
    obtain ⟨hl, hsides⟩ :=
      h.lowerExpr yes hk₁.onward.left hk₁.onward.right hn₂ hsides hA₃ hB₃
    obtain ⟨hr, hsides⟩ := h.lowerExpr no hl.onward.left hl.onward.right hn₃ hsides hA₄ hB₄
    obtain ⟨hon, hu, ty, ha, hb⟩ := hl.met hr hsides hA₅ hB₅
    obtain ⟨tk', hagree'⟩ := hk₁.agree
    have hcond := hagree'.onward hk₁.onward.left hk₁.onward.right hon
    obtain ⟨q₁, rfl, hsel⟩ := Build.emitted_of_run Emit.ends_select hA
    obtain ⟨q₁', rfl, hsel'⟩ := Build.emitted_of_run Emit.ends_select hB
    have htwin := Twin.selected hon.left hon.right hcond ha hb hsel hsel'
    exact ⟨(hk.onward.trans (hk₁.onward.trans hon)).twin htwin, hu⟩
  | .cast arg ty =>
    rw [Build.lowerExpr] at hA hB
    obtain ⟨a₁, s₁, hA₁, hA⟩ := run_bind_ok hA
    obtain ⟨b₁, t₁, hB₁, hB⟩ := run_bind_ok hB
    obtain ⟨hn₁, hw⟩ := Bool.and_eq_true_iff.1 hn
    obtain ⟨htwin, hu⟩ := h.lowerExpr arg hs ht hn₁ hsides hA₁ hB₁
    obtain ⟨ta, hagree⟩ := htwin.agree
    obtain ⟨q, rfl, hconv⟩ := Build.emitted_of_run Emit.ends_cast hA
    obtain ⟨q', rfl, hconv'⟩ := Build.emitted_of_run Emit.ends_cast hB
    exact ⟨htwin.onward.twin (.converted htwin.onward.left htwin.onward.right hagree
      (of_decide_eq_true hw) hconv hconv'), hu⟩

theorem lowerExprs (h : Alternative inputs x c v s₀ t₀) (es : List Expr) {s t s' t' : Bench}
    {as bs : List Operand} {u w : List Side} (hs : Led s₀ s) (ht : Led t₀ t)
    (hn : Expr.narrowAll es = true)
    (hsides : Build.sidesAll es s ++ u = Build.sidesAll es t ++ w)
    (hA : (Build.lowerExprs es).run s = .ok as s') (hB : (Build.lowerExprs es).run t = .ok bs t') :
    Twins inputs s₀ t₀ s t as s' bs t' ∧ u = w := by
  match es with
  | [] =>
    rw [Build.lowerExprs] at hA hB
    cases hA
    cases hB
    exact ⟨⟨.refl hs ht, [], .nil⟩, hsides⟩
  | e :: es =>
    rw [Build.lowerExprs] at hA hB
    obtain ⟨a₁, s₁, hA₁, hA⟩ := run_bind_ok hA
    obtain ⟨as₁, s₂, hA₂, hA⟩ := run_bind_ok hA
    obtain ⟨b₁, t₁, hB₁, hB⟩ := run_bind_ok hB
    obtain ⟨bs₁, t₂, hB₂, hB⟩ := run_bind_ok hB
    cases hA
    cases hB
    obtain ⟨hn₁, hn₂⟩ := Bool.and_eq_true_iff.1 hn
    rw [Build.sidesAll_cons hA₁, Build.sidesAll_cons hB₁, List.append_assoc,
      List.append_assoc] at hsides
    obtain ⟨hl, hsides⟩ := h.lowerExpr e hs ht hn₁ hsides hA₁ hB₁
    obtain ⟨⟨hon, tys, hall⟩, hu⟩ :=
      h.lowerExprs es hl.onward.left hl.onward.right hn₂ hsides hA₂ hB₂
    obtain ⟨ty, hagree⟩ := hl.agree
    exact ⟨⟨hl.onward.trans hon, ty :: tys,
      .cons (hagree.onward hl.onward.left hl.onward.right hon) hall⟩, hu⟩

end

end Alternative

namespace Build

/-- **A variable that is known to hold a literal may as well be read at run time**: an expression
    that is lowered in both states, with the same sides converted, gives operands of one type, and
    where both have a value it is the same. -/
theorem lowerExpr_of_known {inputs : ValueId → Option Literal} {x : VarId}
    {c : Literal} {v : ValueId} {s t s' t' : Bench} {e : Expr} {a b : Operand}
    (h : Alternative inputs x c v s t) (hn : e.narrow = true)
    (hsides : (conversions e s).map Conversion.side = (conversions e t).map Conversion.side)
    (hA : (lowerExpr e).run s = .ok a s') (hB : (lowerExpr e).run t = .ok b t') :
    (∃ ty, s'.graph.typeOf? a = some ty ∧ t'.graph.typeOf? b = some ty) ∧
      ∀ k k', s'.graph.Denotes inputs a k → t'.graph.Denotes inputs b k' → k = k' := by
  have happ : sides e s ++ [] = sides e t ++ [] := congrArg (· ++ []) hsides
  obtain ⟨⟨-, ty, hagree⟩, -⟩ := h.lowerExpr e (.refl h.left) (.refl h.right) hn happ hA hB
  exact ⟨⟨ty, hagree.left, hagree.right⟩, fun k k' hk hk' => hagree.value hk hk'⟩

/-! ## 5. A datum of 8 bits -/

/-- The state of `doubling` after its datum has been read. -/
def arrived : Tracked :=
  let s := (Lowering.start doubling Preset.fast.settings).tracked
  let i : Instr := ⟨.assign, [], some ⟨⟨0⟩, .read⟩⟩
  { s with graph := s.graph.withInstr ⟨0⟩ 0 (.unsigned 8) (.port ⟨0⟩) i }

/-- The bench of `doubling` after its datum has been read, with `o` as the content of the
    variable. -/
def received (o : Operand) : Bench :=
  (Lowering.start doubling Preset.fast.settings).bench.retrack (arrived.recorded ⟨0⟩ ⟨0⟩ o)

theorem consistent_received {o : Operand} (ho : arrived.graph.typeOf? o = some (.unsigned 8))
    (ha : arrived.graph.AtHand ⟨0⟩ o) : (received o).Consistent := by
  have hadmits : Instr.Admits doubling ⟨.assign, [], some ⟨⟨0⟩, .read⟩⟩ [] (.unsigned 8) := by
    refine ⟨trivial, fun {u} hu => ?_, fun _ => ⟨_, rfl⟩⟩
    cases hu
    exact ⟨rfl, _, List.mem_cons_self, rfl, rfl, rfl, rfl⟩
  have hread : Move doubling (Lowering.start doubling Preset.fast.settings).tracked arrived :=
    .instr (y := Block.fresh ⟨0⟩ "entry" .live) rfl rfl hadmits 0 (.port ⟨0⟩)
  have hwrite : Move doubling arrived (received o).tracked :=
    .write (d := ⟨⟨0⟩, "x", .unsigned 8, []⟩) rfl ho ha.anchors ⟨0⟩ fun _ => ha
  have hmoves := (Moves.single hread).trans (.single hwrite)
  have hput : Put ⟨.fresh doubling.name, ⟨⟨0⟩, none⟩⟩ (.unsigned 8) (.port ⟨0⟩)
      ⟨.assign, [], some ⟨⟨0⟩, .read⟩⟩ ⟨0⟩ ⟨arrived.graph, ⟨⟨0⟩, none⟩⟩ :=
    ⟨rfl, ⟨Block.fresh ⟨0⟩ "entry" .live, rfl, Nat.le_refl 0, rfl⟩, rfl⟩
  have hintact := Bench.Intact.put
    (s := (Lowering.start doubling Preset.fast.settings).bench) ⟨.fresh _ _ _, rfl⟩ hput
  have hfresh : (Graph.fresh doubling.name).Resulting := fun v i hi => by cases hi
  exact ⟨hmoves.idle (.start doubling Preset.fast.settings),
    hintact.tracked.record (d := ⟨⟨0⟩, "x", .unsigned 8, []⟩) rfl ho ⟨0⟩,
    hfresh.withInstr (hadmits.op.gives rfl),
    (Graph.Anchored.fresh doubling.name).withInstr fun o ho => by cases ho⟩

/-- The data: the one that is read is 44. -/
def fortyFour (v : ValueId) : Option Literal :=
  if v = ⟨0⟩ then some (.ofNat 44 (.unsigned 8)) else none

/-- In one state of `doubling` its variable is known to hold 44, in the other one it holds a datum
    that is 44. -/
theorem alternative_received : Alternative fortyFour ⟨0⟩ (.ofNat 44 (.unsigned 8)) ⟨0⟩
    (received (.lit (.ofNat 44 (.unsigned 8)))) (received (.value ⟨0⟩)) where
  left := consistent_received rfl (Graph.atHand_lit _ _ _)
  right := consistent_received rfl fun w hw => by
    cases hw
    exact ⟨_, rfl, rfl⟩
  differ := by
    refine ⟨rfl, rfl, rfl, rfl, rfl, fun q hq => ?_⟩
    have hother : ∀ o, (received o).reaching.defs.get? q = arrived.reaching.defs.get? q :=
      fun o => (Reaching.get?_record _ _ _ _ _).trans (if_neg (Ne.symm hq))
    rw [hother, hother]
  port := ⟨_, _, rfl, rfl⟩
  datum := rfl
  inputs := fun {v c} h => by
    unfold fortyFour at h
    split at h
    · rename_i hv
      subst hv
      cases h
      rfl
    · cases h
  widths := fun {y d} h => by
    have hmem : d ∈ doubling.vars := List.mem_reverse.1 (List.mem_of_find?_eq_some h)
    cases List.mem_singleton.1 hmem
    decide

/-- Whether a computation gives an answer, and a state, that pass a test. -/
def passes {α : Type} (x : Build α) (s : Bench) (t : α → Bench → Bool) : Bool :=
  match x.run s with
  | .ok a u => t a u
  | .error _ _ => false

theorem exists_of_passes {α : Type} {x : Build α} {s : Bench} {t : α → Bench → Bool}
    (h : passes x s t = true) : ∃ a u, x.run s = .ok a u ∧ t a u = true := by
  unfold passes at h
  split at h
  · rename_i a u hx
    exact ⟨a, u, hx, h⟩
  · cases h

/-- The sum of the variable and itself, compared with a literal of 8 bits. -/
def doubledIsLarge : Expr :=
  .compare .lt (.lit (.ofNat 80 (.unsigned 8))) (.binary .add (.var ⟨0⟩) (.var ⟨0⟩))

/-- The agreement where one lowering folds everything and the other one leaves two instructions. -/
theorem lowerExpr_of_known_doubled :
    ∃ a b s' t', (lowerExpr doubledIsLarge).run (received (.lit (.ofNat 44 (.unsigned 8)))) =
        .ok a s' ∧
      (lowerExpr doubledIsLarge).run (received (.value ⟨0⟩)) = .ok b t' ∧
      a = .lit (.ofBool true) ∧ b = .value ⟨2⟩ ∧
      ∀ k k', s'.graph.Denotes fortyFour a k → t'.graph.Denotes fortyFour b k' → k = k' := by
  obtain ⟨a, s', hA, ha⟩ := exists_of_passes (x := lowerExpr doubledIsLarge)
    (s := received (.lit (.ofNat 44 (.unsigned 8)))) (t := fun a _ => a = .lit (.ofBool true))
    (by decide +kernel)
  obtain ⟨b, t', hB, hb⟩ := exists_of_passes (x := lowerExpr doubledIsLarge)
    (s := received (.value ⟨0⟩)) (t := fun b _ => b = .value ⟨2⟩) (by decide +kernel)
  exact ⟨a, b, s', t', hA, hB, of_decide_eq_true ha, of_decide_eq_true hb,
    (lowerExpr_of_known alternative_received (by decide) (by decide +kernel) hA hB).2⟩

/-- The sum of a literal of 16 bits and the variable. -/
def wideSum : Expr := .binary .add (.lit (.ofNat 300 (.unsigned 16))) (.var ⟨0⟩)

/-- Where the sides differ the lowerings part: a known 44 is brought to 16 bits and gives 344, while
    the literal is brought to the 8 bits of a datum, which gives 88. -/
theorem lowerExpr_known_side :
    Alternative fortyFour ⟨0⟩ (.ofNat 44 (.unsigned 8)) ⟨0⟩
        (received (.lit (.ofNat 44 (.unsigned 8)))) (received (.value ⟨0⟩)) ∧
      ∃ a b s' t',
        (lowerExpr wideSum).run (received (.lit (.ofNat 44 (.unsigned 8)))) = .ok a s' ∧
        (lowerExpr wideSum).run (received (.value ⟨0⟩)) = .ok b t' ∧
        s'.graph.typeOf? a = some (.unsigned 16) ∧ t'.graph.typeOf? b = some (.unsigned 8) ∧
        s'.graph.Denotes fortyFour a (.ofNat 344 (.unsigned 16)) ∧
        t'.graph.Denotes fortyFour b (.ofNat 88 (.unsigned 8)) := by
  obtain ⟨a, s', hA, ha⟩ := exists_of_passes (x := lowerExpr wideSum)
    (s := received (.lit (.ofNat 44 (.unsigned 8))))
    (t := fun a s' => s'.graph.typeOf? a = some (.unsigned 16) ∧
      s'.graph.evaluate fortyFour 2 a = some (.ofNat 344 (.unsigned 16))) (by decide +kernel)
  obtain ⟨b, t', hB, hb⟩ := exists_of_passes (x := lowerExpr wideSum) (s := received (.value ⟨0⟩))
    (t := fun b t' => t'.graph.typeOf? b = some (.unsigned 8) ∧
      t'.graph.evaluate fortyFour 2 b = some (.ofNat 88 (.unsigned 8))) (by decide +kernel)
  have ha := of_decide_eq_true ha
  have hb := of_decide_eq_true hb
  exact ⟨alternative_received, a, b, s', t', hA, hB, ha.1, hb.1, ⟨2, ha.2⟩, 2, hb.2⟩

end Build

end BitFlow
