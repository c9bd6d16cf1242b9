import BitFlow.Proofs.Constant.Evaluate

/-!
# Literals beyond the limit

The lowering admits literals up to a width. An expression that has a value only if wider literals
are let in is no constant under the limit, and lowering it is to report the literal instead of
computing the value at run time. It does, since every literal that the evaluation meets is lowered
as well, with one exception: the bounds of a range are evaluated, not lowered, and the limit does
not reach into them.

Main statements: `Build.lowerExpr_fails_of_wide` -- the report, where the bounds of the ranges have
the same values under the limit; `Build.lowerExpr_wide_bound` -- a bound that goes unreported.
-/

namespace BitFlow

/-! ## 1. The literals of an expression -/

mutual

/-- The literals of an expression outside the bounds of its ranges, from left to right. -/
def Expr.literals : Expr → List Literal
  | .lit c => [c]
  | .var _ => []
  | .unary _ arg => arg.literals
  | .binary _ lhs rhs => lhs.literals ++ rhs.literals
  | .compare _ lhs rhs => lhs.literals ++ rhs.literals
  | .concat parts => Expr.literalsAll parts
  | .bit base pos => base.literals ++ pos.literals
  | .range base _ _ => base.literals
  | .ternary cond yes no => cond.literals ++ (yes.literals ++ no.literals)
  | .cast arg _ => arg.literals
termination_by structural e => e

def Expr.literalsAll : List Expr → List Literal
  | [] => []
  | e :: es => e.literals ++ Expr.literalsAll es
termination_by structural es => es

end

mutual

/-- The bounds of the ranges of an expression; a bound is not searched for further ranges. -/
def Expr.bounds : Expr → List Expr
  | .lit _ => []
  | .var _ => []
  | .unary _ arg => arg.bounds
  | .binary _ lhs rhs => lhs.bounds ++ rhs.bounds
  | .compare _ lhs rhs => lhs.bounds ++ rhs.bounds
  | .concat parts => Expr.boundsAll parts
  | .bit base pos => base.bounds ++ pos.bounds
  | .range base msb lsb => [msb, lsb] ++ base.bounds
  | .ternary cond yes no => cond.bounds ++ (yes.bounds ++ no.bounds)
  | .cast arg _ => arg.bounds
termination_by structural e => e

def Expr.boundsAll : List Expr → List Expr
  | [] => []
  | e :: es => e.bounds ++ Expr.boundsAll es
termination_by structural es => es

end

/-- The limit admits all of the literals. -/
def Admits (limit : Nat) (cs : List Literal) : Prop := ∀ c ∈ cs, c.admitted limit = true

/-- The limit does not touch the values of the expressions. -/
def Encloses (limit : Nat) (es : List Expr) : Prop := ∀ e ∈ es, e.evalWithin limit = e.eval?

theorem admits_append {limit : Nat} {cs ds : List Literal} :
    Admits limit (cs ++ ds) ↔ Admits limit cs ∧ Admits limit ds :=
  List.forall_mem_append

theorem encloses_append {limit : Nat} {es fs : List Expr} :
    Encloses limit (es ++ fs) ↔ Encloses limit es ∧ Encloses limit fs :=
  List.forall_mem_append

namespace Expr

mutual

/-- **An expression has the same value under a limit that admits its literals**, the bounds of its
    ranges included. -/
theorem evalWithin_eq_eval? {limit : Nat} (e : Expr) (hl : Admits limit e.literals)
    (hb : Encloses limit e.bounds) : e.evalWithin limit = e.eval? := by
  unfold eval?
  match e with
  | .lit c =>
    have hc : c.admitted limit = true := hl c (List.mem_singleton.2 rfl)
    rw [evalWithin_lit, evalWithin_lit, if_pos hc, if_pos (Literal.admitted_storage hc)]
  | .var x => rw [evalWithin_var, evalWithin_var]
  | .unary op arg =>
    rw [evalWithin, evalWithin, evalWithin_eq_eval? arg hl hb, eval?]
  | .binary op lhs rhs =>
    rw [literals, admits_append] at hl
    rw [bounds, encloses_append] at hb
    rw [evalWithin, evalWithin, evalWithin_eq_eval? lhs hl.1 hb.1,
      evalWithin_eq_eval? rhs hl.2 hb.2, eval?, eval?]
  | .compare op lhs rhs =>
    rw [literals, admits_append] at hl
    rw [bounds, encloses_append] at hb
    rw [evalWithin, evalWithin, evalWithin_eq_eval? lhs hl.1 hb.1,
      evalWithin_eq_eval? rhs hl.2 hb.2, eval?, eval?]
  | .concat parts =>
    rw [evalWithin, evalWithin, evalAllWithin_eq_storage parts hl hb]
  | .bit base pos =>
    rw [literals, admits_append] at hl
    rw [bounds, encloses_append] at hb
    rw [evalWithin, evalWithin, evalWithin_eq_eval? base hl.1 hb.1,
      evalWithin_eq_eval? pos hl.2 hb.2, eval?, eval?]
  | .range base msb lsb =>
    rw [bounds, encloses_append] at hb
    rw [evalWithin, evalWithin, evalWithin_eq_eval? base hl hb.2, hb.1 msb (by simp),
      hb.1 lsb (by simp), eval?, eval?, eval?]
  | .ternary cond yes no =>
    rw [literals, admits_append, admits_append] at hl
    rw [bounds, encloses_append, encloses_append] at hb
    rw [evalWithin, evalWithin, evalWithin_eq_eval? cond hl.1 hb.1,
      evalWithin_eq_eval? yes hl.2.1 hb.2.1, evalWithin_eq_eval? no hl.2.2 hb.2.2, eval?, eval?,
      eval?]
  | .cast arg ty =>
    rw [evalWithin, evalWithin, evalWithin_eq_eval? arg hl hb, eval?]

theorem evalAllWithin_eq_storage {limit : Nat} (es : List Expr)
    (hl : Admits limit (literalsAll es)) (hb : Encloses limit (boundsAll es)) :
    evalAllWithin limit es = evalAllWithin storageBits es := by
  match es with
  | [] => rw [evalAllWithin_nil, evalAllWithin_nil]
  | e :: es =>
    rw [literalsAll, admits_append] at hl
    rw [boundsAll, encloses_append] at hb
    rw [evalAllWithin, evalAllWithin, evalWithin_eq_eval? e hl.1 hb.1,
      evalAllWithin_eq_storage es hl.2 hb.2, eval?]

end

end Expr

/-! ## 2. What a successful lowering has admitted -/

/-- The computation succeeds only under a limit that admits the literals. -/
def Checks {α : Type} (x : Build α) (cs : List Literal) : Prop :=
  ∀ s, Ends x s (fun _ => True) fun _ _ => Admits s.literalLimit cs

namespace Checks

variable {α β : Type} {x : Build α} {f : α → Build β} {cs ds : List Literal}

theorem none (x : Build α) : Checks x [] := fun _ =>
  Ends.of_run fun _ _ _ _ hc => absurd hc List.not_mem_nil

/-- What was checked first stays checked. -/
theorem first (hx : Checks x cs) : Checks (x >>= f) cs := fun s =>
  (Ends.bind_iff x f).2 ((hx s).mono fun _ _ h => Ends.of_run fun _ _ _ => h)

/-- What is checked later is checked under the same limit. -/
theorem next (hx : Keeps Bench.literalLimit x) (hf : ∀ a, Checks (f a) cs) :
    Checks (x >>= f) cs := fun s =>
  Ends.seq (hx s) fun a t ht => ht ▸ hf a t

theorem bind (hx : Checks x cs) (hk : Keeps Bench.literalLimit x) (hf : ∀ a, Checks (f a) ds) :
    Checks (x >>= f) (cs ++ ds) := fun s =>
  ((hx.first s).and (next hk hf s)).mono fun _ _ h => admits_append.2 h

end Checks

namespace Build

theorem checks_literal (c : Literal) (site : String) : Checks (literal c site) [c] := by
  intro s
  unfold literal
  rw [Ends.bind_iff, Ends.get_iff]
  dsimp only
  split
  · rename_i hc
    exact fun d hd => List.mem_singleton.1 hd ▸ hc
  · trivial

mutual

/-- **A lowered expression holds only admitted literals**, outside the bounds of its ranges. -/
theorem checks_lowerExpr (e : Expr) : Checks (lowerExpr e) e.literals := by
  match e with
  | .lit c =>
    rw [lowerExpr_lit]
    exact checks_literal c _
  | .var x => exact .none _
  | .unary op arg =>
    rw [lowerExpr]
    exact (checks_lowerExpr arg).first
  | .binary op lhs rhs =>
    rw [lowerExpr]
    exact (checks_lowerExpr lhs).bind (keepsLimit_lowerExpr lhs) fun a =>
      (checks_lowerExpr rhs).first
  | .compare op lhs rhs =>
    rw [lowerExpr]
    exact (checks_lowerExpr lhs).bind (keepsLimit_lowerExpr lhs) fun a =>
      (checks_lowerExpr rhs).first
  | .concat parts =>
    rw [lowerExpr]
    exact (checks_lowerExprs parts).first
  | .bit base pos =>
    rw [lowerExpr]
    exact .next (keepsLimit_refuseArrayBase base _) fun _ =>
      (checks_lowerExpr base).bind (keepsLimit_lowerExpr base) fun a =>
        (checks_lowerExpr pos).first
  | .range base msb lsb =>
    rw [lowerExpr]
    exact .next (keepsLimit_refuseArrayBase base _) fun _ => (checks_lowerExpr base).first
  | .ternary cond yes no =>
    rw [lowerExpr]
    exact (checks_lowerExpr cond).bind (keepsLimit_lowerExpr cond) fun c =>
      .next (keepsLimit_emit _) fun c =>
        (checks_lowerExpr yes).bind (keepsLimit_lowerExpr yes) fun a =>
          (checks_lowerExpr no).first
  | .cast arg ty =>
    rw [lowerExpr]
    exact (checks_lowerExpr arg).first

theorem checks_lowerExprs (es : List Expr) : Checks (lowerExprs es) (Expr.literalsAll es) := by
  match es with
  | [] => exact .none _
  | e :: es =>
    rw [lowerExprs]
    exact (checks_lowerExpr e).bind (keepsLimit_lowerExpr e) fun o =>
      (checks_lowerExprs es).first

end

/-! ## 3. The report -/

/-- **An expression that is a constant only by literals beyond the limit is not lowered**, in no
    state of the bench, if the bounds of its ranges have the same values under the limit. -/
theorem lowerExpr_fails_of_wide {e : Expr} {s : Bench} {c : Literal} (hwide : e.eval? = some c)
    (hnone : s.constant? e = none) (hbounds : Encloses s.literalLimit e.bounds) :
    ∃ fault t, (lowerExpr e).run s = .error fault t := by
  cases hrun : (lowerExpr e).run s with
  | error fault t => exact ⟨fault, t, rfl⟩
  | ok o t =>
    have hadmits : Admits s.literalLimit e.literals := (checks_lowerExpr e s).of_ok hrun
    have heval : s.constant? e = e.eval? := e.evalWithin_eq_eval? hadmits hbounds
    rw [hnone, hwide] at heval
    cases heval

/-- A comparison of literals of 64 bits, where 32 are admitted. -/
theorem lowerExpr_fails_of_wide_compare :
    ∃ fault t, (lowerExpr (.compare .eq (.lit (.ofNat 5 (.unsigned 64)))
      (.lit (.ofNat 5 (.unsigned 64))))).run (.fresh "" [] false 32) = .error fault t := by
  have hvalue : (Expr.compare .eq (.lit (.ofNat 5 (.unsigned 64)))
      (.lit (.ofNat 5 (.unsigned 64)))).eval? = some (.ofBool true) := by decide
  exact lowerExpr_fails_of_wide hvalue (by decide) (fun b hb => absurd hb List.not_mem_nil)

/-- The four low bits of five of 8 bits, the upper bound written with 64 bits. -/
def wideBound : Expr :=
  .range (.lit (.ofNat 5 (.unsigned 8))) (.lit (.ofNat 3 (.unsigned 64)))
    (.lit (.ofNat 0 (.unsigned 8)))

/-- A literal beyond the limit as the bound of a range is not reported: the expression is no
    constant under the limit, and its lowering gives a literal. -/
theorem lowerExpr_wide_bound :
    wideBound.eval? = some (.ofNat 5 (.unsigned 4)) ∧
      (Bench.fresh "" [] false 32).constant? wideBound = none ∧
      ∃ t, (lowerExpr wideBound).run (.fresh "" [] false 32) =
        .ok (.lit (.ofNat 5 (.unsigned 4))) t :=
  ⟨by decide, by decide, _, rfl⟩

end Build

end BitFlow
