import BitFlow.Build.Expr
import BitFlow.Proofs.Emit.Applied

/-!
# Which operands a lowering converts

Where two operands meet at one type, the lowering converts one of them if their types differ: the
second one if it is a literal, else the first one if that is a literal, else the second one again.
`Build.conversions` lists these choices for an expression in the order in which they are made.

The list depends on the state from which the expression is lowered, because a variable may hold a
literal in one state and a value in another.
-/

namespace BitFlow

/-- One of two operands. -/
inductive Side where
  | left
  | right
  deriving DecidableEq, Repr

/-- A place at which two operands meet at one type. -/
inductive Meeting where
  /-- The operands of an operator. -/
  | operands
  /-- The arms of a ternary, and the arm that its condition takes if that is a literal. -/
  | arms (taken : Option Side)
  deriving DecidableEq, Repr

/-- An operand that was converted. -/
structure Conversion where
  meeting : Meeting
  side : Side
  deriving DecidableEq, Repr

/-- The conversion that two operands need, if their types differ. -/
def Graph.conversion (g : Graph) (m : Meeting) (a b : Operand) : List Conversion :=
  if g.typeOf? a = g.typeOf? b then []
  else
    match a.literal?, b.literal? with
    | some _, none => [⟨m, .left⟩]
    | _, _ => [⟨m, .right⟩]

namespace Graph

variable {g : Graph} {a b : Operand} {ty : Ty} {c : Literal} (m : Meeting)

theorem conversion_same (h : g.typeOf? a = g.typeOf? b) : g.conversion m a b = [] := if_pos h

theorem conversion_left (hb : g.typeOf? b = some ty) (hne : c.ty ≠ ty) (hl : b.literal? = none) :
    g.conversion m (.lit c) b = [⟨m, .left⟩] := by
  unfold conversion
  rw [if_neg fun e => hne (Option.some.inj (e.trans hb)), hl]
  rfl

theorem conversion_right (ha : g.typeOf? a = some ty) (hne : ty ≠ c.ty) :
    g.conversion m a (.lit c) = [⟨m, .right⟩] := by
  have htypes : g.typeOf? a ≠ g.typeOf? (.lit c) :=
    fun e => hne (Option.some.inj (ha.symm.trans e))
  unfold conversion
  rw [if_neg htypes]
  cases a <;> rfl

theorem conversion_values (hne : g.typeOf? a ≠ g.typeOf? b) (ha : a.literal? = none) :
    g.conversion m a b = [⟨m, .right⟩] := by
  unfold conversion
  rw [if_neg hne, ha]

end Graph

/-- The arm that a condition takes, if it is a literal. -/
def Operand.takenArm (cond : Operand) : Option Side :=
  cond.literal?.map fun c => if c.isTrue then .left else .right

namespace Build

/-- What is said of the answer and the state of a computation; nothing if it stops. -/
def after {α β : Type} (x : Build α) (s : Bench) (f : α → Bench → List β) : List β :=
  match x.run s with
  | .ok a t => f a t
  | .error _ _ => []

theorem after_of_ok {α β : Type} {x : Build α} {s t : Bench} {a : α} (h : x.run s = .ok a t)
    (f : α → Bench → List β) : after x s f = f a t := by
  unfold after
  rw [h]

mutual

/-- The conversions that lowering an expression makes when it is started in `s`. -/
def conversions (e : Expr) (s : Bench) : List Conversion :=
  match e with
  | .lit _ => []
  | .var _ => []
  | .unary _ arg => conversions arg s
  | .binary op lhs rhs =>
      conversions lhs s ++ after (lowerExpr lhs) s fun a s =>
        conversions rhs s ++ after (lowerExpr rhs) s fun b s =>
          if op.isShift then [] else s.graph.conversion .operands a b
  | .compare _ lhs rhs =>
      conversions lhs s ++ after (lowerExpr lhs) s fun a s =>
        conversions rhs s ++ after (lowerExpr rhs) s fun b s =>
          s.graph.conversion .operands a b
  | .concat parts => conversionsAll parts s
  | .bit base pos => conversions base s ++ after (lowerExpr base) s fun _ s => conversions pos s
  | .range base _ _ => conversions base s
  | .ternary cond yes no =>
      conversions cond s ++ after (lowerExpr cond) s fun c s =>
        after (Emit.condition c e.describe) s fun c s =>
          conversions yes s ++ after (lowerExpr yes) s fun a s =>
            conversions no s ++ after (lowerExpr no) s fun b s =>
              s.graph.conversion (.arms c.takenArm) a b
  | .cast arg _ => conversions arg s
termination_by structural e

/-- The conversions that lowering some expressions makes, from left to right. -/
def conversionsAll (es : List Expr) (s : Bench) : List Conversion :=
  match es with
  | [] => []
  | e :: es => conversions e s ++ after (lowerExpr e) s fun _ s => conversionsAll es s
termination_by structural es

end

end Build

end BitFlow
