import BitFlow.Build.Expr
import BitFlow.Proofs.Plan.Emit

/-!
# Lowering expressions

An expression is lowered by quiet steps, and where control can be the operand that it is lowered to
denotes its value.

Main statement: `Build.ends_lowerExpr`, and from it `Build.ends_lowerCondition`.
-/

namespace BitFlow

/-- **The expression was lowered to the operand.** -/
structure Delivers (w : World) (b : BlockId) (p : Plan) (s : Bench) (e : Expr) (o : Operand)
    (p' : Plan) (s' : Bench) : Prop where
  quiet : Quiet b p s p' s'
  offers : Offers p' s'.tracked b o
  denotes : ∀ {ty}, e.typeIn s.reaching.vars = some ty → p.Reached b →
    Denotes w b p' s' o ty fun σ => w.eval σ e

/-- The expressions were lowered to the operands, one after the other. -/
structure DeliversAll (w : World) (b : BlockId) (p : Plan) (s : Bench) (es : List Expr)
    (os : List Operand) (p' : Plan) (s' : Bench) : Prop where
  quiet : Quiet b p s p' s'
  offers : ∀ o ∈ os, Offers p' s'.tracked b o
  denotes : ∀ {tys}, Expr.typesIn s.reaching.vars es = some tys → p.Reached b →
    os.map (p'.roles.typeOf s'.reaching.vars) = tys ∧
      DenotesAll w b p' s' os fun σ => w.evalAll σ es

/-- A function that agrees on typed stores denotes the same. -/
theorem Denotes.congr_typed {w : World} {b : BlockId} {p : Plan} {s : Bench} {o : Operand} {ty : Ty}
    {f g : Store → Literal} (h : Denotes w b p s o ty f) (hb : Built p s.tracked)
    (hg : ∀ σ : Store, σ.Typed s.reaching.vars → f σ = g σ) : Denotes w b p s o ty g :=
  h.congr fun _ hr π _ => hg _ (hb.typed_content hr b π)

namespace Build

variable {w : World} {b : BlockId} {p p' : Plan} {s s' : Bench} {R : Fault → Prop}
  (hR : Tolerates R)

/-! ## 1. Leaves -/

include hR in
theorem ends_literal (h : Ready b p s) {c : Literal} {site : String} :
    Ends (literal c site) s R fun o s' => ∃ p', Delivers w b p s (.lit c) o p' s' := by
  unfold literal
  rw [Ends.bind_iff, Ends.get_iff]
  dsimp only
  split
  · refine ⟨p, .refl h.built, .lit _ _ _ c, fun {ty} ht _ => ?_⟩
    rw [Expr.typeIn] at ht
    rw [← (Ty.proper?_eq_some.1 ht).1]
    exact (Denotes.lit c).congr fun {m} _ _ _ _ => by rw [World.eval]
  · exact hR rfl

include hR in
/-- The content of a variable, read at the cursor. -/
theorem ends_read (h : Ready b p s) {x : VarId} {d : Variable}
    (hx : variableById? s.reaching.vars x = some d) :
    Ends (liftM (Track.read x b) : Build Operand) s R fun o s' => ∃ p', Quiet b p s p' s' ∧
      Offers p' s'.tracked b o ∧ (p.Reached b → Denotes w b p' s' o d.ty fun σ => σ x) := by
  rw [ends_track]
  refine (Track.ends_read (fun _ => hR rfl) h.built.drawn.sane (h.built.known h.here)
    (.inr h.built.grounded)).mono fun o t ht => ?_
  have hk := ht.kept h.built.drawn.sane
  obtain ⟨R', hg, hb, hl, ho, hans⟩ := h.built.read ht
  refine ⟨{ p with roles := R' }, ⟨hb, hl, rfl, rfl, hk.vars, hk.anchors (Nat.le_refl _), R', [],
    (p.extend_nil b R').symm, fun v hv => by cases hv⟩, ho, fun hreach => ⟨?_, ?_⟩⟩
  · refine hb.typeOf_read hreach ?_ hans
    show variableById? t.reaching.vars x = some d
    rw [hk.vars]
    exact hx
  · exact fun hm _ π hπ => hans hm π hπ

include hR in
theorem ends_variableRead (h : Ready b p s) {x : VarId} {site : String} :
    Ends (variableRead x site) s R fun o s' => ∃ p', Delivers w b p s (.var x) o p' s' := by
  unfold variableRead
  rw [Ends.bind_iff, ends_track]
  refine Track.ends_declaration (fun _ => hR rfl) fun d hd => ?_
  dsimp only
  split
  · rw [Ends.bind_iff]
    exact hR rfl
  · rw [Ends.bind_iff, Ends.get_iff]
    change Ends (liftM (Track.read x s.cursor.block) : Build Operand) s R _
    rw [h.cursor]
    refine (ends_read (w := w) hR h hd).mono fun o s' ⟨p', hq, ho, hden⟩ => ?_
    refine ⟨p', hq, ho, fun {ty} ht hreach => ?_⟩
    rw [Expr.typeIn] at ht
    obtain ⟨d', hd', ht⟩ := Option.bind_eq_some_iff.1 ht
    cases hd.symm.trans hd'
    rw [← (Ty.proper?_eq_some.1 ht).1]
    exact (hden hreach).congr fun {m} _ _ _ _ => by rw [World.eval]

/-! ## 2. All expressions -/

include hR in
/-- The operands of a binary operator; those of one type are left alone. -/
theorem ends_align (h : Ready b p s) {op : Binary} {a c : Operand} {site : String}
    (ha : Offers p s.tracked b a) (hc : Offers p s.tracked b c) :
    Ends (align op a c site) s R fun r s' =>
      ∃ p', Quiet b p s p' s' ∧ Offers p' s'.tracked b r.1 ∧ Offers p' s'.tracked b r.2 ∧
        (op.isShift ∨ p.roles.typeOf s.reaching.vars a = p.roles.typeOf s.reaching.vars c →
          r = (a, c)) := by
  unfold align
  split
  · exact ⟨p, .refl h.built, ha, hc, fun _ => rfl⟩
  · rename_i hs
    refine (ends_coerce hR h ha hc).mono fun r s' ⟨p', hq, h1, h2, he⟩ => ?_
    exact ⟨p', hq, h1, h2, fun hor => he (hor.resolve_left hs)⟩

mutual

/-- **An expression is lowered** to an operand that denotes its value. -/
theorem ends_lowerExpr (hR : Tolerates R) (e : Expr) {p : Plan} {s : Bench} (h : Ready b p s) :
    Ends (lowerExpr e) s R fun o s' => ∃ p', Delivers w b p s e o p' s' := by
  match e with
  | .lit c =>
    rw [lowerExpr_lit]
    exact ends_literal hR h
  | .var x =>
    rw [lowerExpr_var]
    exact ends_variableRead hR h
  | .unary op arg =>
    rw [lowerExpr, Ends.bind_iff]
    refine (ends_lowerExpr hR arg h).mono fun a s₁ ⟨p₁, d₁⟩ => ?_
    have h₁ := d₁.quiet.ready h
    refine (ends_unary (w := w) h₁ d₁.offers).mono fun o s₂ ⟨p₂, hq, ho, hd⟩ => ?_
    refine ⟨p₂, d₁.quiet.trans hq, ho, fun {ty} ht hreach => ?_⟩
    rw [Expr.typeIn] at ht
    refine (hd ty _ (d₁.denotes ht hreach)).congr_typed hq.built fun σ hσ => ?_
    rw [hq.vars, d₁.quiet.vars] at hσ
    rw [World.eval, World.ty_eval hσ arg ht]
  | .binary op lhs rhs =>
    rw [lowerExpr, Ends.bind_iff]
    refine (ends_lowerExpr hR lhs h).mono fun a s₁ ⟨p₁, d₁⟩ => ?_
    have h₁ := d₁.quiet.ready h
    rw [Ends.bind_iff]
    refine (ends_lowerExpr hR rhs h₁).mono fun c s₂ ⟨p₂, d₂⟩ => ?_
    have h₂ := d₂.quiet.ready h₁
    have ha := d₂.quiet.offers d₁.offers
    rw [Ends.bind_iff]
    refine (ends_align hR h₂ ha d₂.offers).mono fun r s₃ ⟨p₃, hq₃, hr1, hr2, he⟩ => ?_
    have h₃ := hq₃.ready h₂
    refine (ends_binary (w := w) hR h₃ hr1 hr2).mono fun o s₄ ⟨p₄, hq₄, ho, hd⟩ => ?_
    refine ⟨p₄, ((d₁.quiet.trans d₂.quiet).trans hq₃).trans hq₄, ho, fun {ty} ht hreach => ?_⟩
    rw [Expr.typeIn] at ht
    obtain ⟨t, hlt, ht⟩ := Option.bind_eq_some_iff.1 ht
    obtain ⟨u, hrt, ht⟩ := Option.bind_eq_some_iff.1 ht
    obtain ⟨hor, rfl⟩ : (op.isShift = true ∨ t = u) ∧ t = ty := by
      split at ht
      · rename_i hor
        exact ⟨hor, Option.some.inj ht⟩
      · cases ht
    have da := (d₁.denotes hlt hreach).quiet d₁.quiet.built d₁.offers.anchors d₂.quiet
    have dc := d₂.denotes (by rw [d₁.quiet.vars]; exact hrt) (d₁.quiet.reached.2 hreach)
    -- both operands are of the type they should have, so they are left alone
    cases he (by rw [da.ty, dc.ty]; exact hor)
    have := hd t u _ _ (da.quiet d₂.quiet.built ha.anchors hq₃)
      (dc.quiet d₂.quiet.built d₂.offers.anchors hq₃)
    refine this.congr_typed hq₄.built fun σ hσ => ?_
    rw [hq₄.vars, hq₃.vars, d₂.quiet.vars, d₁.quiet.vars] at hσ
    rw [World.eval, World.ty_eval hσ lhs hlt]
  | .compare op lhs rhs =>
    rw [lowerExpr, Ends.bind_iff]
    refine (ends_lowerExpr hR lhs h).mono fun a s₁ ⟨p₁, d₁⟩ => ?_
    have h₁ := d₁.quiet.ready h
    rw [Ends.bind_iff]
    refine (ends_lowerExpr hR rhs h₁).mono fun c s₂ ⟨p₂, d₂⟩ => ?_
    have h₂ := d₂.quiet.ready h₁
    have ha := d₂.quiet.offers d₁.offers
    rw [Ends.bind_iff]
    refine (ends_coerce hR h₂ ha d₂.offers).mono fun r s₃ ⟨p₃, hq₃, hr1, hr2, he⟩ => ?_
    have h₃ := hq₃.ready h₂
    refine (ends_compare (w := w) hR h₃ hr1 hr2).mono fun o s₄ ⟨p₄, hq₄, ho, hd⟩ => ?_
    refine ⟨p₄, ((d₁.quiet.trans d₂.quiet).trans hq₃).trans hq₄, ho, fun {ty} ht hreach => ?_⟩
    rw [Expr.typeIn] at ht
    obtain ⟨t, hlt, ht⟩ := Option.bind_eq_some_iff.1 ht
    obtain ⟨u, hrt, ht⟩ := Option.bind_eq_some_iff.1 ht
    obtain ⟨rfl, rfl⟩ : t = u ∧ Ty.bit = ty := by
      split at ht
      · rename_i e
        exact ⟨e, Option.some.inj ht⟩
      · cases ht
    have da := (d₁.denotes hlt hreach).quiet d₁.quiet.built d₁.offers.anchors d₂.quiet
    have dc := d₂.denotes (by rw [d₁.quiet.vars]; exact hrt) (d₁.quiet.reached.2 hreach)
    cases he (by rw [da.ty, dc.ty])
    have := hd t t _ _ (da.quiet d₂.quiet.built ha.anchors hq₃)
      (dc.quiet d₂.quiet.built d₂.offers.anchors hq₃)
    exact this.congr fun {m} _ _ _ _ => by rw [World.eval]
  | .concat parts =>
    rw [lowerExpr, Ends.bind_iff]
    refine (ends_lowerExprs hR parts h).mono fun os s₁ ⟨p₁, d₁⟩ => ?_
    have h₁ := d₁.quiet.ready h
    refine (ends_concat (w := w) hR h₁ d₁.offers).mono fun o s₂ ⟨p₂, hq, ho, hd⟩ => ?_
    refine ⟨p₂, d₁.quiet.trans hq, ho, fun {ty} ht hreach => ?_⟩
    rw [Expr.typeIn] at ht
    obtain ⟨tys, htys, ht⟩ := Option.bind_eq_some_iff.1 ht
    obtain ⟨rfl, hh⟩ := Ty.proper?_eq_some.1 ht
    obtain ⟨h1, h2⟩ := d₁.denotes htys hreach
    refine (hd tys _ h1 h2 hh).congr_typed hq.built fun σ hσ => ?_
    rw [hq.vars, d₁.quiet.vars] at hσ
    rw [World.eval, World.totalWidth_evalAll hσ parts htys]
  | .bit base pos =>
    rw [lowerExpr, Ends.bind_iff]
    refine ends_refuseArrayBase hR ?_
    rw [Ends.bind_iff]
    refine (ends_lowerExpr hR base h).mono fun a s₁ ⟨p₁, d₁⟩ => ?_
    have h₁ := d₁.quiet.ready h
    rw [Ends.bind_iff]
    refine (ends_lowerExpr hR pos h₁).mono fun k s₂ ⟨p₂, d₂⟩ => ?_
    have h₂ := d₂.quiet.ready h₁
    have ha := d₂.quiet.offers d₁.offers
    refine (ends_index (w := w) hR h₂ ha d₂.offers).mono fun o s₃ ⟨p₃, hq, ho, hd⟩ => ?_
    refine ⟨p₃, (d₁.quiet.trans d₂.quiet).trans hq, ho, fun {ty} ht hreach => ?_⟩
    rw [Expr.typeIn] at ht
    obtain ⟨t, hbt, ht⟩ := Option.bind_eq_some_iff.1 ht
    obtain ⟨u, hpt, ht⟩ := Option.bind_eq_some_iff.1 ht
    cases ht
    have da := (d₁.denotes hbt hreach).quiet d₁.quiet.built d₁.offers.anchors d₂.quiet
    have dk := d₂.denotes (by rw [d₁.quiet.vars]; exact hpt) (d₁.quiet.reached.2 hreach)
    refine (hd t u _ _ da dk (base.holds_of_typeIn hbt)).congr fun {m} _ _ _ _ => ?_
    rw [World.eval]
  | .range base msb lsb =>
    rw [lowerExpr, Ends.bind_iff]
    refine ends_refuseArrayBase hR ?_
    rw [Ends.bind_iff]
    refine (ends_lowerExpr hR base h).mono fun a s₁ ⟨p₁, d₁⟩ => ?_
    have h₁ := d₁.quiet.ready h
    rw [Ends.bind_iff]
    refine ends_bound hR fun hi hhi => ?_
    rw [Ends.bind_iff]
    refine ends_bound hR fun lo hlo => ?_
    refine (ends_slice (w := w) hR h₁ d₁.offers).mono fun o s₂ ⟨p₂, hq, ho, hd⟩ => ?_
    refine ⟨p₂, d₁.quiet.trans hq, ho, fun {ty} ht hreach => ?_⟩
    rw [Expr.typeIn] at ht
    obtain ⟨t, hbt, ht⟩ := Option.bind_eq_some_iff.1 ht
    obtain ⟨u, hmt, ht⟩ := Option.bind_eq_some_iff.1 ht
    obtain ⟨v, hlt, ht⟩ := Option.bind_eq_some_iff.1 ht
    obtain ⟨i, hi', ht⟩ := Option.bind_eq_some_iff.1 ht
    obtain ⟨j, hj', ht⟩ := Option.bind_eq_some_iff.1 ht
    cases hhi.symm.trans hi'
    cases hlo.symm.trans hj'
    have hty : Ty.unsigned (hi - lo + 1) = ty := by
      split at ht
      · exact (Ty.proper?_eq_some.1 ht).1
      · cases ht
    subst hty
    obtain ⟨c, hc, rfl⟩ := position?_eq_some hhi
    obtain ⟨d, hd', rfl⟩ := position?_eq_some hlo
    refine (hd t _ (d₁.denotes hbt hreach) (base.holds_of_typeIn hbt)).2.congr fun {m} _ _ _ _ => ?_
    rw [World.eval, (World.eval_evalWithin msb hmt hc).2, (World.eval_evalWithin lsb hlt hd').2]
  | .ternary cond yes no =>
    rw [lowerExpr, Ends.bind_iff]
    refine (ends_lowerExpr hR cond h).mono fun c₀ s₀ ⟨p₀, d₀⟩ => ?_
    have h₀ := d₀.quiet.ready h
    rw [Ends.bind_iff]
    refine (ends_condition (w := w) hR h₀ d₀.offers).mono fun c s₁ ⟨p₁, hq₁, hc, hcd⟩ => ?_
    have h₁ := hq₁.ready h₀
    rw [Ends.bind_iff]
    refine (ends_lowerExpr hR yes h₁).mono fun a s₂ ⟨p₂, d₂⟩ => ?_
    have h₂ := d₂.quiet.ready h₁
    rw [Ends.bind_iff]
    refine (ends_lowerExpr hR no h₂).mono fun e' s₃ ⟨p₃, d₃⟩ => ?_
    have h₃ := d₃.quiet.ready h₂
    have ha := d₃.quiet.offers d₂.offers
    rw [Ends.bind_iff]
    refine (ends_coerce hR h₃ ha d₃.offers).mono fun r s₄ ⟨p₄, hq₄, hr1, hr2, he⟩ => ?_
    have h₄ := hq₄.ready h₃
    have hc₄ := hq₄.offers (d₃.quiet.offers (d₂.quiet.offers hc))
    refine (ends_select (w := w) hR h₄ hc₄ hr1 hr2).mono fun o s₅ ⟨p₅, hq₅, ho, hd⟩ => ?_
    refine ⟨p₅, ((((d₀.quiet.trans hq₁).trans d₂.quiet).trans d₃.quiet).trans hq₄).trans hq₅, ho,
      fun {ty} ht hreach => ?_⟩
    rw [Expr.typeIn] at ht
    obtain ⟨tc, hct, ht⟩ := Option.bind_eq_some_iff.1 ht
    obtain ⟨t, hyt, ht⟩ := Option.bind_eq_some_iff.1 ht
    obtain ⟨u, hnt, ht⟩ := Option.bind_eq_some_iff.1 ht
    obtain ⟨rfl, rfl⟩ : t = u ∧ t = ty := by
      split at ht
      · rename_i e
        exact ⟨e, Option.some.inj ht⟩
      · cases ht
    have hv₁ := hq₁.vars.trans d₀.quiet.vars
    have hr₁ : p₁.Reached b := hq₁.reached.2 (d₀.quiet.reached.2 hreach)
    obtain ⟨k, dk, hk⟩ := hcd tc _ (d₀.denotes hct hreach)
    have dk₄ := ((dk.quiet hq₁.built hc.anchors d₂.quiet).quiet d₂.quiet.built
      (d₂.quiet.offers hc).anchors d₃.quiet).quiet d₃.quiet.built
      (d₃.quiet.offers (d₂.quiet.offers hc)).anchors hq₄
    have da := (d₂.denotes (by rw [hv₁]; exact hyt) hr₁).quiet d₂.quiet.built d₂.offers.anchors
      d₃.quiet
    have de := d₃.denotes (by rw [d₂.quiet.vars, hv₁]; exact hnt) (d₂.quiet.reached.2 hr₁)
    cases he (by rw [da.ty, de.ty])
    have := hd .bit t k _ _ dk₄ (da.quiet d₃.quiet.built ha.anchors hq₄)
      (de.quiet d₃.quiet.built d₃.offers.anchors hq₄) (yes.holds_of_typeIn hyt)
    refine this.congr fun {m} _ _ _ _ => ?_
    rw [World.eval, hk]
  | .cast arg ty' =>
    rw [lowerExpr, Ends.bind_iff]
    refine (ends_lowerExpr hR arg h).mono fun a s₁ ⟨p₁, d₁⟩ => ?_
    have h₁ := d₁.quiet.ready h
    refine (ends_cast (w := w) hR h₁ d₁.offers).mono fun o s₂ ⟨p₂, hq, ho, _, hd⟩ => ?_
    refine ⟨p₂, d₁.quiet.trans hq, ho, fun {ty} ht hreach => ?_⟩
    rw [Expr.typeIn] at ht
    obtain ⟨t, hat, ht⟩ := Option.bind_eq_some_iff.1 ht
    obtain ⟨rfl, -⟩ := Ty.proper?_eq_some.1 ht
    refine (hd t _ (d₁.denotes hat hreach) (arg.holds_of_typeIn hat)).congr fun {m} _ _ _ _ => ?_
    rw [World.eval]

/-- Expressions are lowered from left to right. -/
theorem ends_lowerExprs (hR : Tolerates R) (es : List Expr) {p : Plan} {s : Bench} (h : Ready b p s) :
    Ends (lowerExprs es) s R fun os s' => ∃ p', DeliversAll w b p s es os p' s' := by
  match es with
  | [] =>
    rw [lowerExprs]
    refine ⟨p, .refl h.built, fun o ho => (by cases ho), fun {tys} ht _ => ?_⟩
    rw [Expr.typesIn] at ht
    cases ht
    refine ⟨rfl, ⟨fun {m} _ _ _ _ => ?_⟩⟩
    rw [World.evalAll]
    rfl
  | e :: es =>
    rw [lowerExprs, Ends.bind_iff]
    refine (ends_lowerExpr hR e h).mono fun o s₁ ⟨p₁, d₁⟩ => ?_
    have h₁ := d₁.quiet.ready h
    rw [Ends.bind_iff]
    refine (ends_lowerExprs hR es h₁).mono fun os s₂ ⟨p₂, d₂⟩ => ?_
    refine ⟨p₂, d₁.quiet.trans d₂.quiet, fun a ha => ?_, fun {tys} ht hreach => ?_⟩
    · rcases List.mem_cons.1 ha with rfl | ha
      · exact d₂.quiet.offers d₁.offers
      · exact d₂.offers a ha
    · rw [Expr.typesIn] at ht
      obtain ⟨t, het, ht⟩ := Option.bind_eq_some_iff.1 ht
      obtain ⟨ts, hest, ht⟩ := Option.bind_eq_some_iff.1 ht
      cases ht
      have de := (d₁.denotes het hreach).quiet d₁.quiet.built d₁.offers.anchors d₂.quiet
      obtain ⟨h1, h2⟩ := d₂.denotes (by rw [d₁.quiet.vars]; exact hest)
        (d₁.quiet.reached.2 hreach)
      refine ⟨?_, ⟨fun {m} hm hr π hπ => ?_⟩⟩
      · rw [List.map_cons, de.ty, h1]
      · rw [(DenotesAll.cons de h2).mean hm hr π hπ, World.evalAll]

end

include hR in
/-- **A condition is lowered** to an operand that is true where the condition is. -/
theorem ends_lowerCondition (e : Expr) (h : Ready b p s) :
    Ends (lowerCondition e) s R fun o s' => ∃ p', Quiet b p s p' s' ∧ Offers p' s'.tracked b o ∧
      ∀ ty, e.typeIn s.reaching.vars = some ty → p.Reached b →
        ∃ g, Denotes w b p' s' o .bit g ∧ ∀ σ, (g σ).isTrue = (w.eval σ e).isTrue := by
  unfold lowerCondition
  rw [Ends.bind_iff]
  refine (ends_lowerExpr (w := w) hR e h).mono fun a s₁ ⟨p₁, d₁⟩ => ?_
  refine (ends_condition (w := w) hR (d₁.quiet.ready h) d₁.offers).mono
    fun o s₂ ⟨p₂, hq, ho, hd⟩ => ?_
  exact ⟨p₂, d₁.quiet.trans hq, ho, fun ty ht hreach => hd ty _ (d₁.denotes ht hreach)⟩

end Build

end BitFlow
