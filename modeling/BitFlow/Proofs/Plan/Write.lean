import BitFlow.Lower.Stmt
import BitFlow.Proofs.Plan.Expr
import BitFlow.Proofs.World.Splice

/-!
# Writing variables

A write to a part of a variable computes the new content of the whole by quiet steps, and every
write ends with the record of that content.

Main statements: `Build.ends_splice`, `Build.ends_write`.
-/

namespace BitFlow

variable {w : World} {b : BlockId} {p p' : Plan} {s s' : Bench} {R : Fault → Prop}

/-- Names and origins are no part of the plan. -/
theorem Quiet.alike (h : Built p s.tracked) {t : Tracked} (ha : s.tracked.Alike t) :
    Quiet b p s p (s.retrack t) := by
  obtain ⟨hb, hl⟩ := h.alike ha
  refine ⟨hb, hl, rfl, rfl, ha.vars, fun ho v hv => (ha.graph.attached v).2 (ho v hv), p.roles, [],
    (p.extend_nil b p.roles).symm, fun v hv => by cases hv⟩

theorem Quiet.jumps (h : Quiet b p s p' s') : p'.jumps = p.jumps := by
  obtain ⟨R, new, rfl, -⟩ := h.plan
  rfl

/-- Types are kept by quiet steps. -/
theorem Quiet.typeOf (h : Quiet b p s p' s') (hb : Built p s.tracked) {o : Operand}
    (ho : s.graph.Anchors o) :
    p'.roles.typeOf s'.reaching.vars o = p.roles.typeOf s.reaching.vars o := by
  rw [h.vars, Roles.typeOf_keep h.later.roles _ (hb.roles_knows ho.knows)]

theorem DenotesAll.append {os os' : List Operand} {F F' : Store → List Literal}
    (h : DenotesAll w b p s os F) (h' : DenotesAll w b p s os' F') :
    DenotesAll w b p s (os ++ os') fun σ => F σ ++ F' σ := by
  refine ⟨fun {m} hm hr π hπ => ?_⟩
  rw [List.map_append, h.mean hm hr π hπ, h'.mean hm hr π hπ]

namespace Build

variable (hR : Tolerates R)

include hR in
theorem ends_sliceIf (c : Prop) [Decidable c] (h : Ready b p s) {a : Operand} {msb lsb : Nat}
    {site : String} (ha : Offers p s.tracked b a) :
    Ends (sliceIf c a msb lsb site) s R fun os s' =>
      ∃ p', Quiet b p s p' s' ∧ (∀ o ∈ os, Offers p' s'.tracked b o) ∧ ∀ ty f,
        Denotes w b p s a ty f → ty.holdsLiterals = true →
          os.map (p'.roles.typeOf s'.reaching.vars) =
              (if c then [.unsigned (msb - lsb + 1)] else []) ∧
            DenotesAll w b p' s' os fun σ => if c then
              [w.apply (.slice msb lsb) [f σ] (.unsigned (msb - lsb + 1))] else [] := by
  unfold sliceIf
  by_cases hc : c
  · rw [if_pos hc, Ends.bind_iff]
    refine (ends_slice (w := w) hR h ha).mono fun o s' ⟨p', hq, ho, hd⟩ => ?_
    refine ⟨p', hq, fun o' ho' => ?_, fun ty f hf hh => ?_⟩
    · rw [List.mem_singleton.1 ho']
      exact ho
    · obtain ⟨-, hden⟩ := hd ty f hf hh
      simp only [if_pos hc]
      exact ⟨congrArg (fun t => [t]) hden.ty, .cons hden .nil⟩
  · rw [if_neg hc]
    refine ⟨p, .refl h.built, fun o ho => (by cases ho), fun ty f _ _ => ?_⟩
    simp only [if_neg hc]
    exact ⟨rfl, .nil⟩

theorem quiet_markPartial (h : Ready b p s) {x : VarId} {o : Operand} (ho : s.graph.Anchors o) :
    Ends (markPartial x o) s R fun _ s' => Quiet b p s p s' :=
  (ends_markPartial ho.knows).mono fun _ _ ⟨_, ht, hs⟩ => hs ▸ Quiet.alike h.built ht

include hR in
/-- **The content of a whole variable with one part replaced.** -/
theorem ends_splice (h : Ready b p s) {d : Variable}
    (hx : variableById? s.reaching.vars d.id = some d) {r : BitRange} {o : Operand} {site : String}
    (ho : Offers p s.tracked b o) :
    Ends (splice d r b o site) s R fun a s' => ∃ p', Quiet b p s p' s' ∧
      Offers p' s'.tracked b a ∧ p'.roles.typeOf s'.reaching.vars a = d.ty ∧
      ∀ f, p.Reached b → d.ty.holdsLiterals = true → Denotes w b p s o (.unsigned r.width) f →
        Denotes w b p' s' a d.ty fun σ => (σ d.id).splice r (f σ) := by
  unfold splice
  dsimp only
  by_cases harr : d.isArray = true
  · rw [if_pos harr]
    exact hR rfl
  rw [if_neg harr]
  by_cases hw : r.Within d.ty.width
  swap
  · rw [if_pos hw]
    exact hR rfl
  rw [if_neg (not_not.2 hw), Ends.bind_iff, ends_edit]
  refine h.built.ends_operandType ho.anchors ?_
  by_cases hwidth : (p.roles.typeOf s.tracked.reaching.vars o).width = r.width
  swap
  · rw [if_pos hwidth]
    exact hR rfl
  rw [if_neg (not_not.2 hwidth), Ends.bind_iff, Ends.get_iff, if_neg (not_not.2 ?_)]
  swap
  · exact congrArg Cursor.block h.cursor
  rw [Ends.bind_iff]
  refine (ends_read (w := w) hR h hx).mono fun old s₁ ⟨p₁, hq₁, hold, hd₁⟩ => ?_
  have h₁ := hq₁.ready h
  rw [ends_sliceIf_bind]
  refine (ends_sliceIf (w := w) hR _ h₁ hold).mono fun above s₂ ⟨p₂, hq₂, habove, hd₂⟩ => ?_
  have h₂ := hq₂.ready h₁
  rw [ends_sliceIf_bind]
  refine (ends_sliceIf (w := w) hR _ h₂ (hq₂.offers hold)).mono
    fun below s₃ ⟨p₃, hq₃, hbelow, hd₃⟩ => ?_
  have h₃ := hq₃.ready h₂
  rw [Ends.bind_iff]
  have ho₃ := hq₃.offers (hq₂.offers (hq₁.offers ho))
  have hparts : ∀ a ∈ above ++ o :: below, Offers p₃ s₃.tracked b a := by
    intro a ha
    rcases List.mem_append.1 ha with ha | ha
    · exact hq₃.offers (habove a ha)
    · rcases List.mem_cons.1 ha with rfl | ha
      · exact ho₃
      · exact hbelow a ha
  refine (ends_concat (w := w) hR h₃ hparts).mono fun joined s₄ ⟨p₄, hq₄, hj, hd₄⟩ => ?_
  have h₄ := hq₄.ready h₃
  rw [Ends.bind_iff]
  refine (ends_cast (w := w) hR h₄ hj).mono fun whole s₅ ⟨p₅, hq₅, hwhole, hty, hd₅⟩ => ?_
  have h₅ := hq₅.ready h₄
  rw [Ends.bind_iff]
  refine (quiet_markPartial h₅ hwhole.anchors).mono fun _ s₆ hq₆ => ?_
  have hq := ((((hq₁.trans hq₂).trans hq₃).trans hq₄).trans hq₅).trans hq₆
  refine ⟨p₅, hq, hq₆.offers hwhole, ?_, fun f hreach hh hf => ?_⟩
  · rw [hq₆.typeOf hq₅.built hwhole.anchors]
    exact hty
  have hdold := hd₁ hreach
  obtain ⟨ht₂, hall₂⟩ := hd₂ d.ty _ hdold hh
  obtain ⟨ht₃, hall₃⟩ := hd₃ d.ty _ (hdold.quiet hq₁.built hold.anchors hq₂) hh
  have hdo := ((hf.quiet h.built ho.anchors hq₁).quiet hq₁.built (hq₁.offers ho).anchors hq₂).quiet
    hq₂.built (hq₂.offers (hq₁.offers ho)).anchors hq₃
  have htabove : above.map (p₃.roles.typeOf s₃.reaching.vars) =
      above.map (p₂.roles.typeOf s₂.reaching.vars) :=
    List.map_congr_left fun a ha => hq₃.typeOf hq₂.built (habove a ha).anchors
  have htys : (above ++ o :: below).map (p₃.roles.typeOf s₃.reaching.vars) =
      r.partTypes d.ty.width (.unsigned r.width) := by
    rw [List.map_append, List.map_cons, htabove, ht₂, hdo.ty, ht₃]
    rfl
  have hsum : widthSum (r.partTypes d.ty.width (.unsigned r.width)) = d.ty.width :=
    r.widthSum_partTypes hw rfl
  have hdj := hd₄ _ _ htys ((hall₂.quiet hq₃).append (.cons hdo hall₃)) (by rw [hsum]; exact hh)
  rw [hsum] at hdj
  have hdw := (hd₅ _ _ hdj hh).quiet hq₅.built hwhole.anchors hq₆
  refine hdw.congr fun {m} hm hr π hπ => ?_
  -- the parts are those of a content of the declared type
  have hσ : (m.content p₅.writes b π d.id).ty = d.ty :=
    hq.built.typed_content hr b π (by rw [show s₆.tracked.reaching.vars = _ from hq.vars]; exact hx)
  have hr' := hr
  rw [hq.vars] at hr'
  have hfty := hf.ty_mean h.built ho.anchors (hr'.mono hq.later.roles) (b :: π)
  rw [hf.mean (hq.later.models hm) (hr'.mono hq.later.roles) π hπ, ← hq.writes] at hfty
  have := World.apply_splice (w := w) (a := m.content p₅.writes b π d.id)
    (c := f fun x => m.content p₅.writes b π x) (r := r)
    (by unfold Literal.width; rw [hσ]; exact hw) (by rw [hσ]; exact hh) (congrArg Ty.width hfty)
  unfold World.above World.below Literal.width at this
  rw [hσ] at this
  exact this

/-- What a write records: the operand `a`, which the content of `x` at the end of `b` is from now
    on. -/
structure Records (b : BlockId) (x : VarId) (a : Operand) (p : Plan) (s : Bench) (s' : Bench) :
    Prop where
  built : Built (p.write b x a) s'.tracked
  later : Later p.toDraft s.tracked (p.write b x a).toDraft s'.tracked
  cursor : s'.cursor = s.cursor
  limit : s'.literalLimit = s.literalLimit
  vars : s'.reaching.vars = s.reaching.vars

include hR in
theorem ends_record (h : Ready b p s) (hj : p.jumps b = []) {x : VarId} {d : Variable}
    (hx : variableById? s.reaching.vars x = some d) {a : Operand} (ha : Offers p s.tracked b a)
    (ht : p.roles.typeOf s.reaching.vars a = d.ty) {Q : Operand → Bench → Prop}
    (hQ : ∀ s', Records b x a p s s' → Q a s') :
    Ends (do
      (liftM (Track.onTables (·.record x b a)) : Build Unit)
      (liftM (Track.nameAfter x a) : Build Unit)
      pure a : Build Operand) s R Q := by
  rw [Ends.bind_iff, ends_track, Track.ends_onTables, Ends.bind_iff, ends_track]
  obtain ⟨hb, hl⟩ := h.built.write h.here hj hx ha ht
  refine (Track.ends_nameAfter (s := s.tracked.recorded x b a) ha.anchors.knows
    fun _ => hR rfl).mono fun _ t ht => hQ (s.retrack t) ?_
  obtain ⟨hb', hl'⟩ := hb.alike ht
  exact ⟨hb', hl.trans hl', rfl, rfl, ht.vars⟩

include hR in
/-- **A write**: what is recorded is the operand, or the old content with a part replaced. -/
theorem ends_write (h : Ready b p s) (hj : p.jumps b = []) {x : VarId} {ranges : List BitRange}
    {o : Operand} (ho : Offers p s.tracked b o) :
    Ends (write x ranges b o) s R fun a s' => ∃ p₁ s₁ d, Quiet b p s p₁ s₁ ∧
      variableById? s.reaching.vars x = some d ∧ Records b x a p₁ s₁ s' ∧
      (ranges = [] → a = o) ∧ ∀ f, p.Reached b → d.ty.holdsLiterals = true →
        Denotes w b p s o (Lower.storeType d.ty ranges) f →
          Denotes w b p₁ s₁ a d.ty fun σ => (σ x).stored ranges (f σ) := by
  unfold write
  rw [Ends.bind_iff, ends_track]
  refine Track.ends_declaration (fun _ => hR rfl) fun d hd => ?_
  rcases ranges with - | ⟨r, - | ⟨r', ranges⟩⟩
  · -- the whole variable
    dsimp only
    rw [Ends.bind_iff, ends_edit]
    refine h.built.ends_operandType ho.anchors ?_
    by_cases ht : p.roles.typeOf s.tracked.reaching.vars o = d.ty
    · rw [if_pos ht, Ends.bind_iff, Ends.pure_iff]
      refine ends_record hR h hj hd ho ht fun s' hs' => ?_
      exact ⟨p, s, d, .refl h.built, hd, hs', fun _ => rfl, fun f _ _ hf => hf⟩
    · rw [if_neg ht]
      exact hR rfl
  · -- one part of it
    dsimp only
    obtain rfl := id_of_variableById? hd
    rw [Ends.bind_iff]
    refine (ends_splice (w := w) hR h hd ho).mono fun a s₁ ⟨p₁, hq, ha, ht, hden⟩ => ?_
    refine ends_record hR (hq.ready h) ?_ (by rw [hq.vars]; exact hd) ha ht fun s' hs' => ?_
    · rw [hq.jumps]
      exact hj
    · exact ⟨p₁, s₁, d, hq, hd, hs', fun e => (by cases e), hden⟩
  · exact hR rfl

end Build

end BitFlow
