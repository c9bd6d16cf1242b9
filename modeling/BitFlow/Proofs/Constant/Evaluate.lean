import BitFlow.Proofs.Bench
import BitFlow.Proofs.Constant.Conversion
import BitFlow.Proofs.World.Basic

/-!
# Evaluating an expression and lowering it

An expression that reads no variable can be evaluated without lowering it; the lowering uses that
to leave out arms and loops whose condition is known. The two agree: an expression with a value is
lowered to that value. They part at one place only, a ternary whose chosen arm is converted to the
type of the other arm, which the evaluation does not look at.

Main statements: `Expr.evalWithin_storage` -- a value under some limit is the value under the
widest one; `Build.lowerExpr_of_constant` -- the agreement; `Build.lowerExpr_converted_arm` -- where
they part.
-/

namespace BitFlow

/-! ## 1. Evaluation -/

/-- What is admitted under some limit is admitted under the widest one. -/
theorem Literal.admitted_storage {limit : Nat} {c : Literal} (h : c.admitted limit = true) :
    c.admitted storageBits = true := by
  unfold admitted at *
  rw [Bool.and_eq_true] at *
  exact ⟨h.1, decide_eq_true ((Ty.holdsLiterals_iff c.ty).1 h.1).2⟩

namespace Expr

mutual

/-- **A value under some limit is the value under the widest one.** -/
theorem evalWithin_storage {limit : Nat} (e : Expr) {c : Literal}
    (h : e.evalWithin limit = some c) : e.evalWithin storageBits = some c := by
  match e with
  | .lit a =>
    rw [evalWithin_lit] at h ⊢
    split at h
    · rename_i ha
      rw [if_pos (Literal.admitted_storage ha), h]
    · cases h
  | .var x =>
    rw [evalWithin_var] at h
    cases h
  | .unary op arg =>
    rw [evalWithin] at h ⊢
    obtain ⟨a, ha, hf⟩ := Option.bind_eq_some_iff.1 h
    rw [evalWithin_storage arg ha]
    exact hf
  | .binary op lhs rhs =>
    rw [evalWithin] at h ⊢
    obtain ⟨a, ha, h⟩ := Option.bind_eq_some_iff.1 h
    obtain ⟨b, hb, hf⟩ := Option.bind_eq_some_iff.1 h
    rw [evalWithin_storage lhs ha, evalWithin_storage rhs hb]
    exact hf
  | .compare op lhs rhs =>
    rw [evalWithin] at h ⊢
    obtain ⟨a, ha, h⟩ := Option.bind_eq_some_iff.1 h
    obtain ⟨b, hb, hf⟩ := Option.bind_eq_some_iff.1 h
    rw [evalWithin_storage lhs ha, evalWithin_storage rhs hb]
    exact hf
  | .concat parts =>
    rw [evalWithin] at h ⊢
    obtain ⟨cs, hcs, hf⟩ := Option.bind_eq_some_iff.1 h
    rw [evalAllWithin_storage parts hcs]
    exact hf
  | .bit base pos =>
    rw [evalWithin] at h ⊢
    obtain ⟨a, ha, h⟩ := Option.bind_eq_some_iff.1 h
    obtain ⟨k, hk, hf⟩ := Option.bind_eq_some_iff.1 h
    rw [evalWithin_storage base ha, evalWithin_storage pos hk]
    exact hf
  | .range base msb lsb =>
    rw [evalWithin] at h ⊢
    obtain ⟨a, ha, h⟩ := Option.bind_eq_some_iff.1 h
    obtain ⟨hi, hhi, h⟩ := Option.bind_eq_some_iff.1 h
    obtain ⟨lo, hlo, hf⟩ := Option.bind_eq_some_iff.1 h
    rw [evalWithin_storage base ha, evalWithin_storage msb hhi, evalWithin_storage lsb hlo]
    exact hf
  | .ternary cond yes no =>
    rw [evalWithin] at h ⊢
    obtain ⟨k, hk, h⟩ := Option.bind_eq_some_iff.1 h
    rw [evalWithin_storage cond hk]
    dsimp only [Option.bind_eq_bind, Option.bind_some]
    split at h
    · rename_i ht
      rw [if_pos ht]
      exact evalWithin_storage yes h
    · rename_i ht
      rw [if_neg ht]
      exact evalWithin_storage no h
  | .cast arg ty =>
    rw [evalWithin] at h ⊢
    obtain ⟨a, ha, hf⟩ := Option.bind_eq_some_iff.1 h
    rw [evalWithin_storage arg ha]
    exact hf

theorem evalAllWithin_storage {limit : Nat} (es : List Expr) {cs : List Literal}
    (h : evalAllWithin limit es = some cs) : evalAllWithin storageBits es = some cs := by
  match es with
  | [] =>
    rw [evalAllWithin_nil] at h ⊢
    exact h
  | e :: es =>
    rw [evalAllWithin] at h ⊢
    obtain ⟨c, hc, h⟩ := Option.bind_eq_some_iff.1 h
    obtain ⟨cs', hcs, h⟩ := Option.bind_eq_some_iff.1 h
    rw [evalWithin_storage e hc, evalAllWithin_storage es hcs]
    exact h

end

/-- The value of an expression is of a type that holds literals. -/
theorem holdsLiterals_of_evalWithin {limit : Nat} (e : Expr) {c : Literal}
    (h : e.evalWithin limit = some c) : c.ty.holdsLiterals = true := by
  have yields (op : Opcode) {args : List Literal} {ty : Ty} (hop : op.Yields ty)
      (hf : fold op args ty = some c) : c.ty.holdsLiterals = true := by
    rw [ty_of_fold op hop hf]
    exact holdsLiterals_of_fold hf
  match e with
  | .lit a =>
    rw [evalWithin_lit] at h
    split at h
    · rename_i ha
      cases h
      exact (Bool.and_eq_true _ _ ▸ ha).1
    · cases h
  | .var x =>
    rw [evalWithin_var] at h
    cases h
  | .unary op arg =>
    rw [evalWithin] at h
    obtain ⟨a, -, hf⟩ := Option.bind_eq_some_iff.1 h
    exact yields (.unary op) trivial hf
  | .binary op lhs rhs =>
    rw [evalWithin] at h
    obtain ⟨a, -, h⟩ := Option.bind_eq_some_iff.1 h
    obtain ⟨b, -, hf⟩ := Option.bind_eq_some_iff.1 h
    exact yields (.binary op) trivial hf
  | .compare op lhs rhs =>
    rw [evalWithin] at h
    obtain ⟨a, -, h⟩ := Option.bind_eq_some_iff.1 h
    obtain ⟨b, -, hf⟩ := Option.bind_eq_some_iff.1 h
    exact yields (.compare op) rfl hf
  | .concat parts =>
    rw [evalWithin] at h
    obtain ⟨cs, -, hf⟩ := Option.bind_eq_some_iff.1 h
    exact yields .concat trivial hf
  | .bit base pos =>
    rw [evalWithin] at h
    obtain ⟨a, -, h⟩ := Option.bind_eq_some_iff.1 h
    obtain ⟨k, -, hf⟩ := Option.bind_eq_some_iff.1 h
    exact yields .index rfl hf
  | .range base msb lsb =>
    rw [evalWithin] at h
    obtain ⟨a, -, h⟩ := Option.bind_eq_some_iff.1 h
    obtain ⟨hi, -, h⟩ := Option.bind_eq_some_iff.1 h
    obtain ⟨lo, -, hf⟩ := Option.bind_eq_some_iff.1 h
    split at hf
    · exact yields (.slice _ _) trivial hf
    · cases hf
  | .ternary cond yes no =>
    rw [evalWithin] at h
    obtain ⟨k, -, h⟩ := Option.bind_eq_some_iff.1 h
    split at h
    · exact holdsLiterals_of_evalWithin yes h
    · exact holdsLiterals_of_evalWithin no h
  | .cast arg ty =>
    rw [evalWithin] at h
    obtain ⟨a, -, hf⟩ := Option.bind_eq_some_iff.1 h
    exact yields .cast trivial hf

end Expr

/-! ## 2. Operators on literals -/

namespace Emit

variable {p q : Pointed} {o : Operand} {a b c k : Literal}

theorem Joined.eq_lit {cs : List Literal} (h : Joined p (cs.map .lit) o q)
    (hf : fold .concat cs (.unsigned (totalWidth cs)) = some c) : o = .lit c := by
  cases h with
  | single sole type unsigned =>
    obtain ⟨a, rfl, rfl⟩ := List.map_eq_singleton_iff.1 sole
    cases type
    -- a single unsigned part is already of the type of the concatenation
    have hty : Ty.unsigned (totalWidth [a]) = a.ty := by
      show (⟨a.ty.width + 0, false⟩ : Ty) = a.ty
      rw [← unsigned]
      rfl
    rw [hty] at hf
    cases (fold_concat_one (holdsLiterals_of_fold hf)).symm.trans hf
    rfl
  | @applied tys _ _ nonempty types _ applied =>
    have htys : tys = cs.map Literal.ty := by
      refine (List.map_inj_right fun _ _ => Option.some.inj).1 (types.symm.trans ?_)
      rw [List.map_map, List.map_map]
      rfl
    have hsum : joinedWidth tys = totalWidth cs := by
      have hle : totalWidth cs ≤ storageBits :=
        ((Ty.holdsLiterals_iff _).1 (holdsLiterals_of_fold hf)).2
      rw [htys, joinedWidth_eq, ← totalWidth_eq]
      exact Nat.min_eq_left (Nat.le_trans hle (by decide))
    rw [hsum] at applied
    exact (applied.eq_of_fold _ hf).1

theorem Sliced.eq_lit {msb lsb : Nat} (h : Sliced p (.lit a) msb lsb o q)
    (hh : a.ty.holdsLiterals = true)
    (hf : fold (.slice msb lsb) [a] (.unsigned (msb - lsb + 1)) = some c) : o = .lit c := by
  cases h with
  | all type le lt =>
    have hty : a.ty = .unsigned (msb - lsb + 1) := Option.some.inj type
    rw [fold_slice_all hty le (by rw [hty]; exact lt) hh] at hf
    cases hf
    rfl
  | applied type le lt part applied => exact (applied.eq_of_fold _ hf).1

theorem Indexed.eq_lit (h : Indexed p (.lit a) (.lit k) o q) (hh : a.ty.holdsLiterals = true)
    (hf : fold .index [a, k] .bit = some c) : o = .lit c := by
  cases h with
  | literal position sliced =>
    cases position
    have hk : k.bits < a.width := by
      by_contra hk
      simp [fold, hk] at hf
    have hw : a.width ≤ storageBits := ((Ty.holdsLiterals_iff _).1 hh).2
    have hmin : min k.bits wordMax = k.bits :=
      Nat.min_eq_left (by unfold storageBits at hw; unfold wordMax; omega)
    rw [hmin] at sliced
    refine sliced.eq_lit hh ?_
    rw [Nat.sub_self]
    exact (fold_slice_one hk).trans hf
  | applied position => cases position

theorem Converted.eq_lit {ty : Ty} (h : Converted p (.lit a) ty o q)
    (hf : fold .cast [a] ty = some c) : o = .lit c := by
  cases h with
  | same type =>
    cases type
    cases (fold_cast_self (holdsLiterals_of_fold hf)).symm.trans hf
    rfl
  | applied _ _ applied => exact (applied.eq_of_fold _ hf).1

/-- Of two literals the second one is brought to the type of the first. -/
theorem Coerced.eq_lits {r : Operand × Operand} (h : Coerced p (.lit a) (.lit b) r q) :
    r = (.lit a, .lit (b.resize a.ty)) := by
  cases h with
  | same left right =>
    have hty : b.ty = a.ty := Option.some.inj (right.trans left.symm)
    rw [← hty, b.resize_self]
  | right left literal =>
    cases literal
    cases left
    rfl
  | left _ _ other => cases other
  | cast _ _ _ _ _ rhs => cases rhs

/-- A literal as a truth value. -/
theorem Tested.eq_lit (h : Tested p (.lit k) o q) : ∃ k', o = .lit k' ∧ k'.isTrue = k.isTrue := by
  cases h with
  | same => exact ⟨k, rfl, rfl⟩
  | applied type ne applied =>
    obtain ⟨rfl, -⟩ := applied.eq_of_fold [k, .zero _] (fold_compare .ne k _ (by decide))
    refine ⟨_, rfl, ?_⟩
    rw [Literal.isTrue_ofBool]
    unfold Relation.holds Literal.isTrue
    rw [Literal.bits_zero]

end Emit

/-! ## 3. The limit on literals -/

namespace Build

theorem keepsLimit_emit {α : Type} (x : Emit α) :
    Keeps Bench.literalLimit (liftM x : Build α) := by
  show Keeps Bench.literalLimit (onPointed x)
  unfold onPointed
  apply Keeps.focus
  exact fun _ _ => rfl

theorem keepsLimit_track {α : Type} (x : Track α) :
    Keeps Bench.literalLimit (liftM x : Build α) := by
  show Keeps Bench.literalLimit (onTracked x)
  unfold onTracked
  apply Keeps.focus
  exact fun _ _ => rfl

theorem keepsLimit_literal (c : Literal) (site : String) :
    Keeps Bench.literalLimit (literal c site) := by
  refine Keeps.get.bind fun s => ?_
  dsimp only
  split
  · exact .pure _
  · exact .throw _

theorem keepsLimit_variableRead (x : VarId) (site : String) :
    Keeps Bench.literalLimit (variableRead x site) := by
  refine (keepsLimit_track _).bind fun d => ?_
  have hread : Keeps Bench.literalLimit
      (do Track.read x (← get).cursor.block : Build Operand) :=
    Keeps.get.bind fun s => keepsLimit_track _
  dsimp only
  split
  · exact (Keeps.throw _).bind fun _ => hread
  · exact hread

theorem keepsLimit_bound (e : Expr) (site : String) :
    Keeps Bench.literalLimit (bound e site) := by
  unfold bound
  split
  · exact .pure _
  · exact .throw _

theorem keepsLimit_refuseArrayBase (base : Expr) (site : String) :
    Keeps Bench.literalLimit (refuseArrayBase base site) := by
  unfold refuseArrayBase
  split
  · refine (keepsLimit_track _).bind fun d => ?_
    split
    · exact .throw _
    · exact .pure _
  · exact .pure _

theorem keepsLimit_align (op : Binary) (a b : Operand) (site : String) :
    Keeps Bench.literalLimit (align op a b site) := by
  unfold align
  split
  · exact .pure _
  · exact keepsLimit_emit _

mutual

/-- Lowering an expression leaves the limit on literals alone. -/
theorem keepsLimit_lowerExpr (e : Expr) : Keeps Bench.literalLimit (lowerExpr e) := by
  match e with
  | .lit c =>
    rw [lowerExpr_lit]
    exact keepsLimit_literal c _
  | .var x =>
    rw [lowerExpr_var]
    exact keepsLimit_variableRead x _
  | .unary op arg =>
    rw [lowerExpr]
    exact (keepsLimit_lowerExpr arg).bind fun a => keepsLimit_emit _
  | .binary op lhs rhs =>
    rw [lowerExpr]
    exact (keepsLimit_lowerExpr lhs).bind fun a => (keepsLimit_lowerExpr rhs).bind fun b =>
      (keepsLimit_align op a b _).bind fun r => keepsLimit_emit _
  | .compare op lhs rhs =>
    rw [lowerExpr]
    exact (keepsLimit_lowerExpr lhs).bind fun a => (keepsLimit_lowerExpr rhs).bind fun b =>
      (keepsLimit_emit _).bind fun r => keepsLimit_emit _
  | .concat parts =>
    rw [lowerExpr]
    exact (keepsLimit_lowerExprs parts).bind fun os => keepsLimit_emit _
  | .bit base pos =>
    rw [lowerExpr]
    exact (keepsLimit_refuseArrayBase base _).bind fun _ => (keepsLimit_lowerExpr base).bind
      fun a => (keepsLimit_lowerExpr pos).bind fun k => keepsLimit_emit _
  | .range base msb lsb =>
    rw [lowerExpr]
    exact (keepsLimit_refuseArrayBase base _).bind fun _ => (keepsLimit_lowerExpr base).bind
      fun a => (keepsLimit_bound msb _).bind fun hi => (keepsLimit_bound lsb _).bind fun lo =>
        keepsLimit_emit _
  | .ternary cond yes no =>
    rw [lowerExpr]
    exact (keepsLimit_lowerExpr cond).bind fun c => (keepsLimit_emit _).bind fun c =>
      (keepsLimit_lowerExpr yes).bind fun a => (keepsLimit_lowerExpr no).bind fun b =>
        (keepsLimit_emit _).bind fun r => keepsLimit_emit _
  | .cast arg ty =>
    rw [lowerExpr]
    exact (keepsLimit_lowerExpr arg).bind fun a => keepsLimit_emit _

theorem keepsLimit_lowerExprs (es : List Expr) : Keeps Bench.literalLimit (lowerExprs es) := by
  match es with
  | [] =>
    rw [lowerExprs]
    exact .pure _
  | e :: es =>
    rw [lowerExprs]
    exact (keepsLimit_lowerExpr e).bind fun o => (keepsLimit_lowerExprs es).bind fun os => .pure _

end

/-! ## 4. The agreement -/

/-- The bound of a range is what the expression evaluates to. -/
theorem ends_bound_of_eval {e : Expr} {c : Literal} {site : String} {s : Bench}
    {Q : Nat → Bench → Prop} (hc : e.evalWithin storageBits = some c) (hQ : Q c.bits s) :
    Ends (bound e site) s (fun _ => True) Q := by
  refine ends_bound tolerates_all fun n hn => ?_
  obtain ⟨c', hc', rfl⟩ := position?_eq_some hn
  cases hc.symm.trans hc'
  exact hQ

/-- No arm that a ternary takes is converted. -/
def Spares (l : List Conversion) : Prop :=
  ∀ side, (⟨.arms (some side), side⟩ : Conversion) ∉ l

theorem Spares.append {l l' : List Conversion} (h : Spares (l ++ l')) : Spares l ∧ Spares l' :=
  ⟨fun side hm => h side (List.mem_append_left _ hm),
    fun side hm => h side (List.mem_append_right _ hm)⟩

/-- Where the arm that is taken is not converted, it is the answer. -/
theorem ends_chooseArm {s : Bench} {k c : Literal} {a b : Operand} {site : String}
    (hs : Spares (s.graph.conversion (.arms (Operand.lit k).takenArm) a b))
    (htaken : (if k.isTrue then a else b) = .lit c) :
    Ends (do
        let (a, b) ← (liftM (Emit.coerce a b site) : Build (Operand × Operand))
        liftM (Emit.select (.lit k) a b site)) s (fun _ => True) fun o _ => o = .lit c := by
  have hspare (side : Side) : (Operand.lit k).takenArm = some side →
      (⟨.arms (some side), side⟩ : Conversion) ∉ s.graph.conversion (.arms (some side)) a b :=
    fun e => e ▸ hs side
  rw [Ends.bind_iff, ends_emit]
  refine Emit.ends_coerce.mono fun r q hr => ?_
  rw [ends_emit]
  refine Emit.ends_select.mono fun o q' ho => ?_
  have ho' : o = if k.isTrue then r.1 else r.2 := by
    cases ho with
    | decided cond =>
      cases cond
      rfl
    | put cond => cases cond
  rw [ho']
  cases hk : k.isTrue with
  | true =>
    rw [hk, if_pos rfl] at htaken
    have hside := hspare .left (by simp [Operand.takenArm, Operand.literal?, hk])
    subst htaken
    cases hr with
    | left right literal other ne =>
      cases literal
      rw [Graph.conversion_left _ right ne other] at hside
      exact absurd List.mem_cons_self hside
    | _ => rfl
  | false =>
    rw [hk, if_neg (by decide)] at htaken
    have hside := hspare .right (by simp [Operand.takenArm, Operand.literal?, hk])
    subst htaken
    cases hr with
    | same => rfl
    | right left literal ne =>
      cases literal
      rw [Graph.conversion_right _ left ne] at hside
      exact absurd List.mem_cons_self hside
    | left _ _ other => cases other
    | cast _ _ _ _ _ rhs => cases rhs

mutual

/-- **An expression with a value is lowered to that value**, if no arm that a ternary takes is
    converted. -/
theorem ends_lowerExpr_of_constant (e : Expr) {s : Bench} {c : Literal}
    (hc : e.evalWithin s.literalLimit = some c) (hs : Spares (conversions e s)) :
    Ends (lowerExpr e) s (fun _ => True) fun o _ => o = .lit c := by
  match e with
  | .lit a =>
    rw [lowerExpr_lit]
    rw [Expr.evalWithin_lit] at hc
    unfold literal
    rw [Ends.bind_iff, Ends.get_iff]
    dsimp only
    split at hc
    · rename_i ha
      cases hc
      rw [if_pos ha]
      rfl
    · cases hc
  | .var x =>
    rw [Expr.evalWithin_var] at hc
    cases hc
  | .unary op arg =>
    rw [lowerExpr, Ends.bind_iff]
    rw [Expr.evalWithin] at hc
    rw [conversions] at hs
    obtain ⟨a, ha, hf⟩ := Option.bind_eq_some_iff.1 hc
    refine (ends_lowerExpr_of_constant arg ha hs).mono fun _ s₁ e => ?_
    subst e
    rw [ends_emit]
    refine Emit.ends_unary.mono fun o q ⟨ty, ht, happ⟩ => ?_
    cases ht
    exact (happ.eq_of_fold [a] hf).1
  | .binary op lhs rhs =>
    rw [lowerExpr, Ends.bind_iff]
    rw [Expr.evalWithin] at hc
    rw [conversions] at hs
    obtain ⟨a, ha, hc⟩ := Option.bind_eq_some_iff.1 hc
    obtain ⟨b, hb, hf⟩ := Option.bind_eq_some_iff.1 hc
    refine (ends_lowerExpr_of_constant lhs ha hs.append.1).imp fun _ s₁ hx₁ e => ?_
    subst e
    have hs₁ := hs.append.2
    rw [after_of_ok hx₁] at hs₁
    rw [← (keepsLimit_lowerExpr lhs).eq_of_ok hx₁] at hb
    rw [Ends.bind_iff]
    refine (ends_lowerExpr_of_constant rhs hb hs₁.append.1).mono fun _ s₂ e => ?_
    subst e
    rw [Ends.bind_iff]
    unfold align Binary.alignLiteral at *
    split
    · rename_i hshift
      rw [if_pos hshift] at hf
      rw [Ends.pure_iff, ends_emit]
      refine Emit.ends_binary.mono fun o q ⟨ta, tb, ht, _, _, happ⟩ => ?_
      cases ht
      exact (happ.eq_of_fold [a, b] hf).1
    · rename_i hshift
      rw [if_neg hshift] at hf
      rw [ends_emit]
      refine Emit.ends_coerce.mono fun r q hr => ?_
      cases hr.eq_lits
      rw [ends_emit]
      refine Emit.ends_binary.mono fun o q ⟨ta, tb, ht, _, _, happ⟩ => ?_
      cases ht
      exact (happ.eq_of_fold [a, b.resize a.ty] hf).1
  | .compare op lhs rhs =>
    rw [lowerExpr, Ends.bind_iff]
    rw [Expr.evalWithin] at hc
    rw [conversions] at hs
    obtain ⟨a, ha, hc⟩ := Option.bind_eq_some_iff.1 hc
    obtain ⟨b, hb, hf⟩ := Option.bind_eq_some_iff.1 hc
    refine (ends_lowerExpr_of_constant lhs ha hs.append.1).imp fun _ s₁ hx₁ e => ?_
    subst e
    have hs₁ := hs.append.2
    rw [after_of_ok hx₁] at hs₁
    rw [← (keepsLimit_lowerExpr lhs).eq_of_ok hx₁] at hb
    rw [Ends.bind_iff]
    refine (ends_lowerExpr_of_constant rhs hb hs₁.append.1).mono fun _ s₂ e => ?_
    subst e
    rw [Ends.bind_iff, ends_emit]
    refine Emit.ends_coerce.mono fun r q hr => ?_
    cases hr.eq_lits
    rw [ends_emit]
    refine Emit.ends_compare.mono fun o q ⟨ta, tb, _, _, _, happ⟩ => ?_
    exact (happ.eq_of_fold [a, b.resize a.ty] hf).1
  | .concat parts =>
    rw [lowerExpr, Ends.bind_iff]
    rw [Expr.evalWithin] at hc
    rw [conversions] at hs
    obtain ⟨cs, hcs, hf⟩ := Option.bind_eq_some_iff.1 hc
    refine (ends_lowerExprs_of_constants parts hcs hs).mono fun _ s₁ e => ?_
    subst e
    rw [ends_emit]
    exact Emit.ends_concat.mono fun o q h => h.eq_lit hf
  | .bit base pos =>
    rw [lowerExpr, Ends.bind_iff]
    rw [Expr.evalWithin] at hc
    rw [conversions] at hs
    obtain ⟨a, ha, hc⟩ := Option.bind_eq_some_iff.1 hc
    obtain ⟨k, hk, hf⟩ := Option.bind_eq_some_iff.1 hc
    refine ends_refuseArrayBase tolerates_all ?_
    rw [Ends.bind_iff]
    refine (ends_lowerExpr_of_constant base ha hs.append.1).imp fun _ s₁ hx₁ e => ?_
    subst e
    have hs₁ := hs.append.2
    rw [after_of_ok hx₁] at hs₁
    rw [← (keepsLimit_lowerExpr base).eq_of_ok hx₁] at hk
    rw [Ends.bind_iff]
    refine (ends_lowerExpr_of_constant pos hk hs₁).mono fun _ s₂ e => ?_
    subst e
    rw [ends_emit]
    exact Emit.ends_index.mono fun o q h => h.eq_lit (base.holdsLiterals_of_evalWithin ha) hf
  | .range base msb lsb =>
    rw [lowerExpr, Ends.bind_iff]
    rw [Expr.evalWithin] at hc
    rw [conversions] at hs
    obtain ⟨a, ha, hc⟩ := Option.bind_eq_some_iff.1 hc
    obtain ⟨hi, hhi, hc⟩ := Option.bind_eq_some_iff.1 hc
    obtain ⟨lo, hlo, hc⟩ := Option.bind_eq_some_iff.1 hc
    refine ends_refuseArrayBase tolerates_all ?_
    rw [Ends.bind_iff]
    refine (ends_lowerExpr_of_constant base ha hs).mono fun _ s₁ e => ?_
    subst e
    rw [Ends.bind_iff]
    refine ends_bound_of_eval (msb.evalWithin_storage hhi) ?_
    rw [Ends.bind_iff]
    refine ends_bound_of_eval (lsb.evalWithin_storage hlo) ?_
    rw [ends_emit]
    split at hc
    · exact Emit.ends_slice.mono fun o q h => h.eq_lit (base.holdsLiterals_of_evalWithin ha) hc
    · cases hc
  | .ternary cond yes no =>
    rw [lowerExpr, Ends.bind_iff]
    rw [Expr.evalWithin] at hc
    rw [conversions] at hs
    obtain ⟨k, hk, hc⟩ := Option.bind_eq_some_iff.1 hc
    refine (ends_lowerExpr_of_constant cond hk hs.append.1).imp fun _ s₁ hx₁ e => ?_
    subst e
    have hs₁ := hs.append.2
    rw [after_of_ok hx₁] at hs₁
    rw [Ends.bind_iff]
    refine Ends.imp (Q := fun o _ => ∃ k', o = .lit k' ∧ k'.isTrue = k.isTrue)
      ((ends_emit _).2 (Emit.ends_condition.mono fun o q h => h.eq_lit)) fun _ s₂ hx₂ h => ?_
    obtain ⟨k', rfl, hkk⟩ := h
    rw [after_of_ok hx₂] at hs₁
    have hlim : s₂.literalLimit = s.literalLimit :=
      ((keepsLimit_emit _).eq_of_ok hx₂).trans ((keepsLimit_lowerExpr cond).eq_of_ok hx₁)
    -- of the arms only the one that is taken has a value
    have hyes (hy : k'.isTrue = true) : yes.evalWithin s₂.literalLimit = some c := by
      rw [hkk] at hy
      rwa [if_pos hy, ← hlim] at hc
    have hno (hn : k'.isTrue = false) : no.evalWithin s₂.literalLimit = some c := by
      rw [hkk] at hn
      rwa [if_neg (by rw [hn]; decide), ← hlim] at hc
    rw [Ends.bind_iff]
    refine Ends.imp (Q := fun o _ => k'.isTrue = true → o = .lit c)
      ?_ fun a s₃ hx₃ hl => ?_
    · cases hy : k'.isTrue with
      | true => exact (ends_lowerExpr_of_constant yes (hyes hy) hs₁.append.1).mono fun _ _ h _ => h
      | false => exact Ends.of_run fun _ _ _ h => by cases h
    have hs₂ := hs₁.append.2
    rw [after_of_ok hx₃] at hs₂
    rw [Ends.bind_iff]
    refine Ends.imp (Q := fun o _ => k'.isTrue = false → o = .lit c)
      ?_ fun b s₄ hx₄ hr => ?_
    · cases hn : k'.isTrue with
      | false =>
        rw [← (keepsLimit_lowerExpr yes).eq_of_ok hx₃] at hno
        exact (ends_lowerExpr_of_constant no (hno hn) hs₂.append.1).mono fun _ _ h _ => h
      | true => exact Ends.of_run fun _ _ _ h => by cases h
    have hs₃ := hs₂.append.2
    rw [after_of_ok hx₄] at hs₃
    refine ends_chooseArm hs₃ ?_
    split
    · rename_i h
      exact hl h
    · rename_i h
      exact hr (by simpa using h)
  | .cast arg ty =>
    rw [lowerExpr, Ends.bind_iff]
    rw [Expr.evalWithin] at hc
    rw [conversions] at hs
    obtain ⟨a, ha, hf⟩ := Option.bind_eq_some_iff.1 hc
    refine (ends_lowerExpr_of_constant arg ha hs).mono fun _ s₁ e => ?_
    subst e
    rw [ends_emit]
    exact Emit.ends_cast.mono fun o q h => h.eq_lit hf

theorem ends_lowerExprs_of_constants (es : List Expr) {s : Bench} {cs : List Literal}
    (hc : Expr.evalAllWithin s.literalLimit es = some cs) (hs : Spares (conversionsAll es s)) :
    Ends (lowerExprs es) s (fun _ => True) fun os _ => os = cs.map .lit := by
  match es with
  | [] =>
    rw [Expr.evalAllWithin_nil] at hc
    cases hc
    rw [lowerExprs]
    rfl
  | e :: es =>
    rw [lowerExprs, Ends.bind_iff]
    rw [Expr.evalAllWithin] at hc
    rw [conversionsAll] at hs
    obtain ⟨c, hce, hc⟩ := Option.bind_eq_some_iff.1 hc
    obtain ⟨cs', hcs, hc⟩ := Option.bind_eq_some_iff.1 hc
    cases hc
    refine (ends_lowerExpr_of_constant e hce hs.append.1).imp fun _ s₁ hx₁ h => ?_
    subst h
    have hs₁ := hs.append.2
    rw [after_of_ok hx₁] at hs₁
    rw [← (keepsLimit_lowerExpr e).eq_of_ok hx₁] at hcs
    rw [Ends.bind_iff]
    refine (ends_lowerExprs_of_constants es hcs hs₁).mono fun _ s₂ h => ?_
    subst h
    rfl

end

/-- **Evaluation agrees with lowering**: an expression that has a value under the limit of the bench
    and is lowered successfully is lowered to exactly that literal, if no arm that a ternary takes
    is converted. -/
theorem lowerExpr_of_constant {e : Expr} {s t : Bench} {c : Literal} {o : Operand}
    (hc : s.constant? e = some c) (hs : Spares (conversions e s))
    (hrun : (lowerExpr e).run s = .ok o t) : o = .lit c :=
  (ends_lowerExpr_of_constant e hc hs).of_ok hrun

/-- A choice between one of 8 bits and 256 of 16 bits; it takes the second. -/
def unevenArms : Expr :=
  .ternary (.lit (.ofBool false)) (.lit (.ofNat 1 (.unsigned 8))) (.lit (.ofNat 256 (.unsigned 16)))

/-- Where the arm that is taken is converted, evaluation and lowering part: the value 256 of 16 bits
    is lowered to 0 of 8 bits. -/
theorem lowerExpr_converted_arm :
    (Bench.fresh "" [] false storageBits).constant? unevenArms =
        some (.ofNat 256 (.unsigned 16)) ∧
      ∃ t, (lowerExpr unevenArms).run (.fresh "" [] false storageBits) =
        .ok (.lit (.ofNat 0 (.unsigned 8))) t :=
  ⟨by decide, _, rfl⟩

/-- The agreement at a sum with operands of two types inside a ternary with arms of one type. -/
theorem lowerExpr_of_constant_sum :
    ∃ t, (lowerExpr (.ternary (.lit (.ofNat 2 (.unsigned 4)))
        (.binary .add (.lit (.ofNat 200 (.unsigned 8))) (.lit (.ofNat 100 (.unsigned 16))))
        (.lit (.ofNat 7 (.unsigned 8))))).run (.fresh "" [] false storageBits) =
      .ok (.lit (.ofNat 44 (.unsigned 8))) t := by
  obtain ⟨o, t, hrun⟩ : ∃ o t, (lowerExpr (.ternary (.lit (.ofNat 2 (.unsigned 4)))
      (.binary .add (.lit (.ofNat 200 (.unsigned 8))) (.lit (.ofNat 100 (.unsigned 16))))
      (.lit (.ofNat 7 (.unsigned 8))))).run (.fresh "" [] false storageBits) = .ok o t :=
    ⟨_, _, rfl⟩
  refine ⟨t, ?_⟩
  rw [hrun, lowerExpr_of_constant (c := .ofNat 44 (.unsigned 8)) (by decide) ?_ hrun]
  intro side
  cases side <;> decide

end Build

end BitFlow
