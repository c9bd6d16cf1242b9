import BitFlow.Proofs.Bits.Fold
import BitFlow.Source.Program

/-!
# Running a program: expressions

A world says what a program cannot say itself: what an operator computes where folding leaves it
open, what an undefined variable holds, and which data arrive at the input ports. In a world every
expression has a value.

Expressions are strictly typed when operands that have to agree have one and the same type and every
type holds literals.

Main statements: `World.ty_eval` -- the value of a typed expression has its type;
`World.eval_evalWithin` -- an expression that can be evaluated without variables has that value in
every world.
-/

namespace BitFlow

/-! ## 1. Worlds -/

/-- What a program cannot say itself. -/
structure World where
  /-- What an operator computes at a type. -/
  apply : Opcode → List Literal → Ty → Literal
  /-- What an undefined variable of a type holds. -/
  undef : Ty → Literal
  /-- What arrives at a port of a type: the datum for the read with that many reads before it. -/
  input : PortId → Ty → Nat → Literal
  ty_apply : ∀ op args ty, (apply op args ty).ty = ty
  /-- Where folding gives a literal of the right type, that is the result. -/
  apply_of_fold : ∀ {op args ty c}, fold op args ty = some c → c.ty = ty → apply op args ty = c
  ty_undef : ∀ ty, (undef ty).ty = ty
  ty_input : ∀ q ty n, (input q ty n).ty = ty

/-- What an operator computes where all that folding leaves open is zero. -/
def foldOrZero (op : Opcode) (args : List Literal) (ty : Ty) : Literal :=
  match fold op args ty with
  | some c => if c.ty = ty then c else .zero ty
  | none => .zero ty

/-- The world in which all that is left open is zero. -/
def World.zero : World where
  apply := foldOrZero
  undef := .zero
  input := fun _ ty _ => .zero ty
  ty_apply := fun op args ty => by
    unfold foldOrZero
    split
    · split
      · assumption
      · rfl
    · rfl
  apply_of_fold := fun {op args ty c} h ht => by
    unfold foldOrZero
    rw [h]
    exact if_pos ht
  ty_undef := fun _ => rfl
  ty_input := fun _ _ _ => rfl

/-- What variables hold. -/
abbrev Store := VarId → Literal

namespace World

variable (w : World)

mutual

/-- The value of an expression. The result of an operator has the type of its first operand, a
    comparison and a bit are truth values, a concatenation and a range are unsigned. -/
def eval (σ : Store) : Expr → Literal
  | .lit c => c
  | .var x => σ x
  | .unary op arg => w.apply (.unary op) [eval σ arg] (eval σ arg).ty
  | .binary op lhs rhs => w.apply (.binary op) [eval σ lhs, eval σ rhs] (eval σ lhs).ty
  | .compare op lhs rhs => w.apply (.compare op) [eval σ lhs, eval σ rhs] .bit
  | .concat parts => w.apply .concat (evalAll σ parts) (.unsigned (totalWidth (evalAll σ parts)))
  | .bit base pos => w.apply .index [eval σ base, eval σ pos] .bit
  | .range base msb lsb =>
      w.apply (.slice (eval σ msb).bits (eval σ lsb).bits) [eval σ base]
        (.unsigned ((eval σ msb).bits - (eval σ lsb).bits + 1))
  | .ternary cond yes no => if (eval σ cond).isTrue then eval σ yes else eval σ no
  | .cast arg ty => w.apply .cast [eval σ arg] ty
termination_by structural e => e

/-- The values of some expressions. -/
def evalAll (σ : Store) : List Expr → List Literal
  | [] => []
  | e :: es => eval σ e :: evalAll σ es
termination_by structural es => es

end

end World

/-! ## 2. Strict types -/

/-- The type, if it holds literals. -/
def Ty.proper? (ty : Ty) : Option Ty := if ty.holdsLiterals then some ty else none

theorem Ty.proper?_eq_some {ty ty' : Ty} :
    ty.proper? = some ty' ↔ ty = ty' ∧ ty'.holdsLiterals = true := by
  unfold proper?
  split
  · rename_i h
    constructor
    · rintro e
      cases e
      exact ⟨rfl, h⟩
    · rintro ⟨rfl, -⟩
      rfl
  · rename_i h
    constructor
    · intro e
      cases e
    · rintro ⟨rfl, h'⟩
      exact absurd h' h

mutual

/-- The type of an expression over the variables `vars`, if it is strictly typed. -/
def Expr.typeIn (vars : List Variable) : Expr → Option Ty
  | .lit c => c.ty.proper?
  | .var x => (variableById? vars x).bind fun d => d.ty.proper?
  | .unary _ arg => arg.typeIn vars
  | .binary op lhs rhs => do
      let s ← lhs.typeIn vars
      let t ← rhs.typeIn vars
      if op.isShift ∨ s = t then some s else none
  | .compare _ lhs rhs => do
      let s ← lhs.typeIn vars
      let t ← rhs.typeIn vars
      if s = t then some .bit else none
  | .concat parts => do
      let tys ← Expr.typesIn vars parts
      (Ty.unsigned (widthSum tys)).proper?
  | .bit base pos => do
      let _ ← base.typeIn vars
      let _ ← pos.typeIn vars
      some .bit
  | .range base msb lsb => do
      let _ ← base.typeIn vars
      let _ ← msb.typeIn vars
      let _ ← lsb.typeIn vars
      let hi ← msb.position?
      let lo ← lsb.position?
      if lo ≤ hi then (Ty.unsigned (hi - lo + 1)).proper? else none
  | .ternary cond yes no => do
      let _ ← cond.typeIn vars
      let s ← yes.typeIn vars
      let t ← no.typeIn vars
      if s = t then some s else none
  | .cast arg ty => do
      let _ ← arg.typeIn vars
      ty.proper?
termination_by structural e => e

/-- The types of some expressions, if all are strictly typed. -/
def Expr.typesIn (vars : List Variable) : List Expr → Option (List Ty)
  | [] => some []
  | e :: es => do
      let ty ← e.typeIn vars
      let tys ← Expr.typesIn vars es
      pure (ty :: tys)
termination_by structural es => es

end

/-- Every declared variable holds a literal of its type. -/
def Store.Typed (σ : Store) (vars : List Variable) : Prop :=
  ∀ {x d}, variableById? vars x = some d → (σ x).ty = d.ty

/-! ## 3. Operators that fold -/

theorem World.apply_fold (w : World) (op : Opcode) {args : List Literal} {ty : Ty} {c : Literal}
    (hop : op.Yields ty) (h : fold op args ty = some c) : w.apply op args ty = c :=
  w.apply_of_fold h (ty_of_fold op hop h)

/-! ## 4. Values of typed expressions -/

/-- The type of a typed expression holds literals. -/
theorem Expr.holds_of_typeIn {vars : List Variable} (e : Expr) {ty : Ty}
    (h : e.typeIn vars = some ty) : ty.holdsLiterals = true := by
  match e with
  | .lit c =>
    rw [typeIn] at h
    exact (Ty.proper?_eq_some.1 h).2
  | .var x =>
    rw [typeIn] at h
    obtain ⟨d, -, hd⟩ := Option.bind_eq_some_iff.1 h
    exact (Ty.proper?_eq_some.1 hd).2
  | .unary op arg =>
    rw [typeIn] at h
    exact Expr.holds_of_typeIn arg h
  | .binary op lhs rhs =>
    rw [typeIn] at h
    obtain ⟨s, hs, h⟩ := Option.bind_eq_some_iff.1 h
    obtain ⟨t, ht, h⟩ := Option.bind_eq_some_iff.1 h
    split at h <;> cases h
    exact Expr.holds_of_typeIn lhs hs
  | .compare op lhs rhs =>
    rw [typeIn] at h
    obtain ⟨s, hs, h⟩ := Option.bind_eq_some_iff.1 h
    obtain ⟨t, ht, h⟩ := Option.bind_eq_some_iff.1 h
    split at h <;> cases h
    rfl
  | .concat parts =>
    rw [typeIn] at h
    obtain ⟨tys, -, h⟩ := Option.bind_eq_some_iff.1 h
    exact (Ty.proper?_eq_some.1 h).2
  | .bit base pos =>
    rw [typeIn] at h
    obtain ⟨_, -, h⟩ := Option.bind_eq_some_iff.1 h
    obtain ⟨_, -, h⟩ := Option.bind_eq_some_iff.1 h
    cases h
    rfl
  | .range base msb lsb =>
    rw [typeIn] at h
    obtain ⟨_, -, h⟩ := Option.bind_eq_some_iff.1 h
    obtain ⟨_, -, h⟩ := Option.bind_eq_some_iff.1 h
    obtain ⟨_, -, h⟩ := Option.bind_eq_some_iff.1 h
    obtain ⟨_, -, h⟩ := Option.bind_eq_some_iff.1 h
    obtain ⟨_, -, h⟩ := Option.bind_eq_some_iff.1 h
    split at h
    · exact (Ty.proper?_eq_some.1 h).2
    · cases h
  | .ternary cond yes no =>
    rw [typeIn] at h
    obtain ⟨_, -, h⟩ := Option.bind_eq_some_iff.1 h
    obtain ⟨s, hs, h⟩ := Option.bind_eq_some_iff.1 h
    obtain ⟨t, -, h⟩ := Option.bind_eq_some_iff.1 h
    split at h <;> cases h
    exact Expr.holds_of_typeIn yes hs
  | .cast arg ty' =>
    rw [typeIn] at h
    obtain ⟨_, -, h⟩ := Option.bind_eq_some_iff.1 h
    exact (Ty.proper?_eq_some.1 h).2

variable {w : World} {vars : List Variable} {σ : Store}

theorem position?_eq_some {e : Expr} {n : Nat} (h : e.position? = some n) :
    ∃ c, e.evalWithin storageBits = some c ∧ c.bits = n := by
  obtain ⟨c, hc, hn⟩ := Option.bind_eq_some_iff.1 h
  unfold Literal.position? at hn
  split at hn
  · exact ⟨c, hc, Option.some.inj hn⟩
  · cases hn

mutual

/-- **An expression that can be evaluated without variables has that value in every world**, and it
    is of the type of the expression. -/
theorem World.eval_evalWithin {limit : Nat} (e : Expr) {ty : Ty} (h : e.typeIn vars = some ty)
    {c : Literal} (hc : e.evalWithin limit = some c) : c.ty = ty ∧ ∀ σ, w.eval σ e = c := by
  match e with
  | .lit a =>
    rw [Expr.typeIn] at h
    rw [Expr.evalWithin_lit] at hc
    split at hc
    · cases hc
      exact ⟨(Ty.proper?_eq_some.1 h).1, fun σ => by rw [eval]⟩
    · cases hc
  | .var x =>
    rw [Expr.evalWithin_var] at hc
    cases hc
  | .unary op arg =>
    rw [Expr.typeIn] at h
    rw [Expr.evalWithin] at hc
    obtain ⟨a, ha, hf⟩ := Option.bind_eq_some_iff.1 hc
    obtain ⟨ht, hv⟩ := World.eval_evalWithin arg h ha
    refine ⟨(ty_of_fold (.unary op) trivial hf).trans ht, fun σ => ?_⟩
    rw [eval, hv]
    exact w.apply_fold (.unary op) trivial hf
  | .binary op lhs rhs =>
    rw [Expr.typeIn] at h
    rw [Expr.evalWithin] at hc
    obtain ⟨s, hs, h⟩ := Option.bind_eq_some_iff.1 h
    obtain ⟨t, ht, h⟩ := Option.bind_eq_some_iff.1 h
    obtain ⟨a, ha, hc⟩ := Option.bind_eq_some_iff.1 hc
    obtain ⟨b, hb, hf⟩ := Option.bind_eq_some_iff.1 hc
    obtain ⟨hat, hav⟩ := World.eval_evalWithin lhs hs ha
    obtain ⟨hbt, hbv⟩ := World.eval_evalWithin rhs ht hb
    split at h <;> cases h
    rename_i hst
    -- the second operand has the type that it is brought to
    have hal : op.alignLiteral a b = b := by
      unfold Binary.alignLiteral
      split
      · rfl
      · rename_i hn
        rw [hat, hst.resolve_left hn, ← hbt]
        exact b.resize_self
    rw [hal] at hf
    refine ⟨(ty_of_fold (.binary op) trivial hf).trans hat, fun σ => ?_⟩
    rw [eval, hav, hbv]
    exact w.apply_fold (.binary op) trivial hf
  | .compare op lhs rhs =>
    rw [Expr.typeIn] at h
    rw [Expr.evalWithin] at hc
    obtain ⟨s, hs, h⟩ := Option.bind_eq_some_iff.1 h
    obtain ⟨t, ht, h⟩ := Option.bind_eq_some_iff.1 h
    obtain ⟨a, ha, hc⟩ := Option.bind_eq_some_iff.1 hc
    obtain ⟨b, hb, hf⟩ := Option.bind_eq_some_iff.1 hc
    obtain ⟨hat, hav⟩ := World.eval_evalWithin lhs hs ha
    obtain ⟨hbt, hbv⟩ := World.eval_evalWithin rhs ht hb
    obtain ⟨rfl, rfl⟩ : s = t ∧ Ty.bit = ty := by
      split at h
      · rename_i e
        exact ⟨e, Option.some.inj h⟩
      · cases h
    have hal : b.resize a.ty = b := by
      rw [hat, ← hbt]
      exact b.resize_self
    rw [hal] at hf
    refine ⟨ty_of_fold (.compare op) rfl hf, fun σ => ?_⟩
    rw [eval, hav, hbv]
    exact w.apply_fold (.compare op) rfl hf
  | .concat parts =>
    rw [Expr.typeIn] at h
    rw [Expr.evalWithin] at hc
    obtain ⟨tys, htys, h⟩ := Option.bind_eq_some_iff.1 h
    obtain ⟨cs, hcs, hf⟩ := Option.bind_eq_some_iff.1 hc
    obtain ⟨hsum, hv⟩ := World.evalAll_evalAllWithin parts htys hcs
    refine ⟨?_, fun σ => ?_⟩
    · rw [ty_of_fold .concat trivial hf, hsum]
      exact (Ty.proper?_eq_some.1 h).1
    · rw [eval, hv]
      exact w.apply_fold .concat trivial hf
  | .bit base pos =>
    rw [Expr.typeIn] at h
    rw [Expr.evalWithin] at hc
    obtain ⟨s, hs, h⟩ := Option.bind_eq_some_iff.1 h
    obtain ⟨t, ht, h⟩ := Option.bind_eq_some_iff.1 h
    obtain ⟨a, ha, hc⟩ := Option.bind_eq_some_iff.1 hc
    obtain ⟨k, hk, hf⟩ := Option.bind_eq_some_iff.1 hc
    cases h
    refine ⟨ty_of_fold .index rfl hf, fun σ => ?_⟩
    rw [eval, (World.eval_evalWithin base hs ha).2, (World.eval_evalWithin pos ht hk).2]
    exact w.apply_fold .index rfl hf
  | .range base msb lsb =>
    rw [Expr.typeIn] at h
    rw [Expr.evalWithin] at hc
    obtain ⟨s, hs, h⟩ := Option.bind_eq_some_iff.1 h
    obtain ⟨t, ht, h⟩ := Option.bind_eq_some_iff.1 h
    obtain ⟨u, hu, h⟩ := Option.bind_eq_some_iff.1 h
    obtain ⟨i, hi, h⟩ := Option.bind_eq_some_iff.1 h
    obtain ⟨j, hj, h⟩ := Option.bind_eq_some_iff.1 h
    obtain ⟨a, ha, hc⟩ := Option.bind_eq_some_iff.1 hc
    obtain ⟨hi', hhi, hc⟩ := Option.bind_eq_some_iff.1 hc
    obtain ⟨lo', hlo, hc⟩ := Option.bind_eq_some_iff.1 hc
    have hav := (World.eval_evalWithin base hs ha).2
    have hhv := (World.eval_evalWithin msb ht hhi).2
    have hlv := (World.eval_evalWithin lsb hu hlo).2
    -- whatever the limit, the bounds are the same
    have hbi : hi'.bits = i := by
      obtain ⟨c', hc', rfl⟩ := position?_eq_some hi
      rw [← hhv fun _ => default, (World.eval_evalWithin msb ht hc').2]
    have hbj : lo'.bits = j := by
      obtain ⟨c', hc', rfl⟩ := position?_eq_some hj
      rw [← hlv fun _ => default, (World.eval_evalWithin lsb hu hc').2]
    split at hc
    · rename_i hle
      rw [hbi, hbj] at hle
      rw [if_pos hle.1] at h
      refine ⟨?_, fun σ => ?_⟩
      · rw [ty_of_fold (.slice _ _) trivial hc, hbi, hbj]
        exact (Ty.proper?_eq_some.1 h).1
      · rw [eval, hav, hhv, hlv]
        exact w.apply_fold (.slice _ _) trivial hc
    · cases hc
  | .ternary cond yes no =>
    rw [Expr.typeIn] at h
    rw [Expr.evalWithin] at hc
    obtain ⟨r, hr, h⟩ := Option.bind_eq_some_iff.1 h
    obtain ⟨s, hs, h⟩ := Option.bind_eq_some_iff.1 h
    obtain ⟨t, ht, h⟩ := Option.bind_eq_some_iff.1 h
    obtain ⟨b, hb, hc⟩ := Option.bind_eq_some_iff.1 hc
    have hbv := (World.eval_evalWithin cond hr hb).2
    split at h <;> cases h
    rename_i e
    subst e
    split at hc
    · rename_i hb
      obtain ⟨h1, h2⟩ := World.eval_evalWithin yes hs hc
      exact ⟨h1, fun σ => by rw [eval, hbv, if_pos hb, h2]⟩
    · rename_i hb
      obtain ⟨h1, h2⟩ := World.eval_evalWithin no ht hc
      exact ⟨h1, fun σ => by rw [eval, hbv, if_neg hb, h2]⟩
  | .cast arg ty' =>
    rw [Expr.typeIn] at h
    rw [Expr.evalWithin] at hc
    obtain ⟨s, hs, h⟩ := Option.bind_eq_some_iff.1 h
    obtain ⟨a, ha, hf⟩ := Option.bind_eq_some_iff.1 hc
    refine ⟨(ty_of_fold .cast trivial hf).trans (Ty.proper?_eq_some.1 h).1, fun σ => ?_⟩
    rw [eval, (World.eval_evalWithin arg hs ha).2]
    exact w.apply_fold .cast trivial hf

theorem World.evalAll_evalAllWithin {limit : Nat} (es : List Expr) {tys : List Ty}
    (h : Expr.typesIn vars es = some tys) {cs : List Literal}
    (hc : Expr.evalAllWithin limit es = some cs) :
    totalWidth cs = widthSum tys ∧ ∀ σ, w.evalAll σ es = cs := by
  match es with
  | [] =>
    rw [Expr.typesIn] at h
    rw [Expr.evalAllWithin_nil] at hc
    cases h
    cases hc
    exact ⟨rfl, fun σ => by rw [evalAll]⟩
  | e :: es =>
    rw [Expr.typesIn] at h
    rw [Expr.evalAllWithin] at hc
    obtain ⟨ty, hty, h⟩ := Option.bind_eq_some_iff.1 h
    obtain ⟨tys, htys, h⟩ := Option.bind_eq_some_iff.1 h
    obtain ⟨c, hce, hc⟩ := Option.bind_eq_some_iff.1 hc
    obtain ⟨cs, hcs, hc⟩ := Option.bind_eq_some_iff.1 hc
    cases h
    cases hc
    obtain ⟨h1, h2⟩ := World.eval_evalWithin e hty hce
    obtain ⟨h3, h4⟩ := World.evalAll_evalAllWithin es htys hcs
    refine ⟨?_, fun σ => by rw [evalAll, h2, h4]⟩
    rw [totalWidth_cons, h3]
    show c.ty.width + _ = _
    rw [h1]
    rfl

end

mutual

/-- **The value of a typed expression has its type.** -/
theorem World.ty_eval (hσ : σ.Typed vars) (e : Expr) {ty : Ty} (h : e.typeIn vars = some ty) :
    (w.eval σ e).ty = ty := by
  match e with
  | .lit c =>
    rw [Expr.typeIn] at h
    rw [eval]
    exact (Ty.proper?_eq_some.1 h).1
  | .var x =>
    rw [Expr.typeIn] at h
    obtain ⟨d, hd, h⟩ := Option.bind_eq_some_iff.1 h
    rw [eval, hσ hd]
    exact (Ty.proper?_eq_some.1 h).1
  | .unary op arg =>
    rw [Expr.typeIn] at h
    rw [eval, w.ty_apply]
    exact World.ty_eval hσ arg h
  | .binary op lhs rhs =>
    rw [Expr.typeIn] at h
    obtain ⟨s, hs, h⟩ := Option.bind_eq_some_iff.1 h
    obtain ⟨t, ht, h⟩ := Option.bind_eq_some_iff.1 h
    split at h <;> cases h
    rw [eval, w.ty_apply]
    exact World.ty_eval hσ lhs hs
  | .compare op lhs rhs =>
    rw [Expr.typeIn] at h
    obtain ⟨s, hs, h⟩ := Option.bind_eq_some_iff.1 h
    obtain ⟨t, ht, h⟩ := Option.bind_eq_some_iff.1 h
    split at h <;> cases h
    rw [eval, w.ty_apply]
  | .concat parts =>
    rw [Expr.typeIn] at h
    obtain ⟨tys, htys, h⟩ := Option.bind_eq_some_iff.1 h
    rw [eval, w.ty_apply, World.totalWidth_evalAll hσ parts htys]
    exact (Ty.proper?_eq_some.1 h).1
  | .bit base pos =>
    rw [Expr.typeIn] at h
    obtain ⟨_, -, h⟩ := Option.bind_eq_some_iff.1 h
    obtain ⟨_, -, h⟩ := Option.bind_eq_some_iff.1 h
    cases h
    rw [eval, w.ty_apply]
  | .range base msb lsb =>
    rw [Expr.typeIn] at h
    obtain ⟨s, -, h⟩ := Option.bind_eq_some_iff.1 h
    obtain ⟨t, ht, h⟩ := Option.bind_eq_some_iff.1 h
    obtain ⟨u, hu, h⟩ := Option.bind_eq_some_iff.1 h
    obtain ⟨i, hi, h⟩ := Option.bind_eq_some_iff.1 h
    obtain ⟨j, hj, h⟩ := Option.bind_eq_some_iff.1 h
    obtain ⟨c, hc, rfl⟩ := position?_eq_some hi
    obtain ⟨d, hd, rfl⟩ := position?_eq_some hj
    rw [eval, w.ty_apply, (World.eval_evalWithin msb ht hc).2, (World.eval_evalWithin lsb hu hd).2]
    split at h
    · exact (Ty.proper?_eq_some.1 h).1
    · cases h
  | .ternary cond yes no =>
    rw [Expr.typeIn] at h
    obtain ⟨_, -, h⟩ := Option.bind_eq_some_iff.1 h
    obtain ⟨s, hs, h⟩ := Option.bind_eq_some_iff.1 h
    obtain ⟨t, ht, h⟩ := Option.bind_eq_some_iff.1 h
    split at h <;> cases h
    rename_i e
    subst e
    rw [eval]
    split
    · exact World.ty_eval hσ yes hs
    · exact World.ty_eval hσ no ht
  | .cast arg ty' =>
    rw [Expr.typeIn] at h
    obtain ⟨_, -, h⟩ := Option.bind_eq_some_iff.1 h
    rw [eval, w.ty_apply]
    exact (Ty.proper?_eq_some.1 h).1

theorem World.totalWidth_evalAll (hσ : σ.Typed vars) (es : List Expr) {tys : List Ty}
    (h : Expr.typesIn vars es = some tys) : totalWidth (w.evalAll σ es) = widthSum tys := by
  match es with
  | [] =>
    rw [Expr.typesIn] at h
    cases h
    rw [evalAll]
    rfl
  | e :: es =>
    rw [Expr.typesIn] at h
    obtain ⟨ty, hty, h⟩ := Option.bind_eq_some_iff.1 h
    obtain ⟨tys, htys, h⟩ := Option.bind_eq_some_iff.1 h
    cases h
    rw [evalAll, totalWidth_cons, World.totalWidth_evalAll hσ es htys]
    show (w.eval σ e).ty.width + _ = _
    rw [World.ty_eval hσ e hty]
    rfl

end

/-! ## 5. Operators that folding settles -/

namespace World

variable (w : World)

theorem apply_slice_all {a : Literal} {msb lsb : Nat}
    (ht : a.ty = .unsigned (msb - lsb + 1)) (hl : lsb ≤ msb) (hm : msb < a.ty.width)
    (hh : a.ty.holdsLiterals = true) :
    w.apply (.slice msb lsb) [a] (.unsigned (msb - lsb + 1)) = a :=
  w.apply_fold (.slice msb lsb) trivial (fold_slice_all ht hl hm hh)

theorem apply_slice_one {a k : Literal} (hk : k.bits < a.width) :
    w.apply (.slice k.bits k.bits) [a] .bit = w.apply .index [a, k] .bit := by
  have hindex : fold .index [a, k] .bit = some (.ofBool (a.bit k.bits)) := by
    unfold fold
    rw [if_pos (by decide)]
    simp only
    rw [if_pos hk]
  have hslice := (fold_slice_one hk).trans hindex
  rw [w.apply_fold (.slice k.bits k.bits) trivial hslice, w.apply_fold .index rfl hindex]

theorem apply_concat_one {a : Literal} {ty : Ty} (ht : a.ty = ty) (hh : ty.holdsLiterals = true) :
    w.apply .concat [a] ty = a := by
  subst ht
  exact w.apply_fold .concat trivial (fold_concat_one hh)

theorem apply_select {c a b : Literal} {ty : Ty} (ha : a.ty = ty) (hb : b.ty = ty)
    (hh : ty.holdsLiterals = true) :
    w.apply .select [c, a, b] ty = if c.isTrue then a else b := by
  refine w.apply_of_fold ?_ ?_
  · unfold fold
    rw [if_pos hh]
  · split
    · exact ha
    · exact hb

theorem apply_cast_self {a : Literal} {ty : Ty} (ht : a.ty = ty) (hh : ty.holdsLiterals = true) :
    w.apply .cast [a] ty = a := by
  subst ht
  exact w.apply_fold .cast trivial (fold_cast_self hh)

theorem apply_compare (r : Relation) (a b : Literal) :
    w.apply (.compare r) [a, b] .bit = .ofBool (r.holds a b) :=
  w.apply_fold (.compare r) rfl (fold_compare r a b (by decide))

end World

end BitFlow
