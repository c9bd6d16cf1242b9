import BitFlow.Proofs.Emit.Applied
import BitFlow.Proofs.Plan.Denote

/-!
# Emitting operators

Every operator is emitted by quiet steps and answers with an operand that can be used in the block
of the cursor. Where the operands denote functions of the store, the answer denotes what the world
computes from them; that the operator is folded, or left out because it would change nothing, makes
no difference.

Main statements: `Build.ends_apply` and one statement for each operator.
-/

namespace BitFlow

/-- The operands, one after the other, hold what `F` gives for the store in `b`. -/
structure DenotesAll (w : World) (b : BlockId) (p : Plan) (s : Bench) (os : List Operand)
    (F : Store → List Literal) : Prop where
  mean : ∀ {m : Meaning Literal}, Models p.toDraft s.tracked m →
    Runs w s.reaching.vars p.roles m → ∀ π, m.Path (b :: π) →
      (os.map fun o => m.mean o (b :: π)) = F fun x => m.content p.writes b π x

variable {w : World} {b : BlockId} {p p' : Plan} {s s' : Bench} {R : Fault → Prop}

theorem DenotesAll.nil : DenotesAll w b p s [] fun _ => [] := ⟨fun _ _ _ _ => rfl⟩

theorem DenotesAll.cons {o : Operand} {os : List Operand} {ty : Ty} {f : Store → Literal}
    {F : Store → List Literal} (h : Denotes w b p s o ty f) (hs : DenotesAll w b p s os F) :
    DenotesAll w b p s (o :: os) fun σ => f σ :: F σ := by
  refine ⟨fun {m} hm hr π hπ => ?_⟩
  rw [List.map_cons, h.mean hm hr π hπ, hs.mean hm hr π hπ]

theorem DenotesAll.quiet {os : List Operand} {F : Store → List Literal}
    (hd : DenotesAll w b p s os F) (h : Quiet b p s p' s') : DenotesAll w b p' s' os F := by
  refine ⟨fun {m} hm hr π hπ => ?_⟩
  rw [h.vars] at hr
  rw [h.writes]
  exact hd.mean (h.later.models hm) (hr.mono h.later.roles) π hπ

/-- Another function that agrees where the operand is of its type denotes the same. -/
theorem Denotes.congr {o : Operand} {ty : Ty} {f g : Store → Literal}
    (h : Denotes w b p s o ty f)
    (hg : ∀ {m : Meaning Literal}, Models p.toDraft s.tracked m →
      Runs w s.reaching.vars p.roles m → ∀ π, m.Path (b :: π) →
        f (fun x => m.content p.writes b π x) = g fun x => m.content p.writes b π x) :
    Denotes w b p s o ty g :=
  ⟨h.ty, fun hm hr π hπ => (h.mean hm hr π hπ).trans (hg hm hr π hπ)⟩

namespace Build

/-! ## 1. Computations at the cursor -/

theorem ends_emit_bind {α β : Type} (x : Emit α) (f : α → Emit β) {Q : β → Bench → Prop} :
    Ends (liftM (x >>= f) : Build β) s R Q ↔
      Ends (liftM x : Build α) s R fun a t => Ends (liftM (f a) : Build β) t R Q := by
  simp only [ends_emit, Ends.bind_iff]

theorem ends_emit_pure {α : Type} (a : α) {Q : α → Bench → Prop} :
    Ends (liftM (pure a : Emit α) : Build α) s R Q ↔ Q a s := ends_emit _

theorem ends_emit_throw {α : Type} (e : Fault) {Q : α → Bench → Prop} :
    Ends (liftM (throw e : Emit α) : Build α) s R Q ↔ R e := ends_emit _

/-- The type of an operand is the one that its role tells. -/
theorem ends_emit_operandType (h : Ready b p s) {o : Operand} (ho : s.graph.Anchors o)
    {Q : Ty → Bench → Prop} (hQ : Q (p.roles.typeOf s.reaching.vars o) s) :
    Ends (liftM (liftM (Edit.operandType o) : Emit Ty) : Build Ty) s R Q := by
  rw [ends_emit]
  refine (Ends.focus_iff _).2 ?_
  exact h.built.ends_operandType ho hQ

/-- **An instruction at the cursor.** -/
theorem ends_instr (h : Ready b p s) {ty : Ty} {op : Opcode} {os : List Operand}
    {portUse : Option PortUse} {origin : Origin} (ho : ∀ o ∈ os, Offers p s.tracked b o)
    {Q : ValueId → Bench → Prop}
    (hQ : ∀ v g, Built (p.extend b (p.roles.set v (.code b ty ⟨op, os, portUse⟩)) [v])
        ⟨g, s.reaching⟩ →
      Later p.toDraft s.tracked ⟨p.roles.set v (.code b ty ⟨op, os, portUse⟩), p.writes⟩
        ⟨g, s.reaching⟩ →
      (∀ {o}, s.graph.Anchors o → g.Anchors o) → g.Anchors (.value v) →
        Q v { s with graph := g }) :
    Ends (liftM (Emit.instr ty op os portUse origin) : Build ValueId) s R Q := by
  obtain ⟨y, hy⟩ := h.built.known h.here
  rw [ends_emit]
  unfold Emit.instr
  rw [Ends.bind_iff, Ends.get_iff, Ends.bind_iff, show s.cursor = ⟨b, none⟩ from h.cursor]
  refine (Ends.focus_iff _).2 (Edit.ends_insertInstr hy (fun hlt => ?_) fun _ => ?_)
  · exact absurd hlt (Nat.lt_irrefl _)
  · obtain ⟨hb, hl⟩ := h.built.emit hy ty origin (i := ⟨op, os, portUse⟩) ho
    have hatt := s.graph.attached_withInstr b y.instrs.length ty origin ⟨op, os, portUse⟩
    have := hQ s.graph.nextValue _ hb hl (fun ha w hw => (hatt w).2 (.inr (ha w hw)))
      (fun w hw => by cases hw; exact (hatt _).2 (.inl rfl))
    rw [show s = { s with cursor := ⟨b, none⟩ } by rw [← h.cursor]] at this
    exact this

/-- An instruction that touches no port is a quiet step. -/
theorem quiet_instr {ty : Ty} {op : Opcode} {os : List Operand} {v : ValueId}
    {g : Graph}
    (hb : Built (p.extend b (p.roles.set v (.code b ty ⟨op, os, none⟩)) [v]) ⟨g, s.reaching⟩)
    (hl : Later p.toDraft s.tracked ⟨p.roles.set v (.code b ty ⟨op, os, none⟩), p.writes⟩
      ⟨g, s.reaching⟩)
    (ha : ∀ {o}, s.graph.Anchors o → g.Anchors o) :
    Quiet b p s (p.extend b (p.roles.set v (.code b ty ⟨op, os, none⟩)) [v])
      { s with graph := g } := by
  refine ⟨hb, hl, rfl, rfl, rfl, ha, _, _, rfl, fun u hu => ?_⟩
  rw [List.mem_singleton.1 hu]
  exact ⟨b, ty, _, Roles.set_self _ _ _, rfl⟩

/-- A new value can be used in its own block. -/
theorem offers_instr {ty : Ty} {i : Instr} {v : ValueId} {g : Graph}
    (ha : g.Anchors (.value v)) :
    Offers (p.extend b (p.roles.set v (.code b ty i)) [v]) ⟨g, s.reaching⟩ b (.value v) := by
  refine ⟨ha, fun hm => Meaning.avail_value ?_⟩
  rw [hm.code (Roles.set_self p.roles v (.code b ty i))]
  exact .refl b

/-! ## 2. Operators in general -/

theorem map_mean_of_literals {m : Meaning Literal} {vars : List Variable} {roles : Roles}
    (hr : Runs w vars roles m) (π : List BlockId) {os : List Operand} {cs : List Literal}
    (h : os.mapM Operand.literal? = some cs) : (os.map fun o => m.mean o π) = cs := by
  induction os generalizing cs with
  | nil =>
    cases h
    rfl
  | cons o os ih =>
    rw [List.mapM_cons] at h
    obtain ⟨c, hc, h⟩ := Option.bind_eq_some_iff.1 h
    obtain ⟨cs', hcs, h⟩ := Option.bind_eq_some_iff.1 h
    cases h
    rw [List.map_cons, ih hcs]
    cases o with
    | lit a =>
      cases hc
      exact congrArg (· :: cs') (hr.lit c)
    | value v => cases hc
    | undef ty => cases hc

/-- **An operator**, folded or not. -/
theorem ends_apply (h : Ready b p s) {ty : Ty} {op : Opcode} {os : List Operand}
    (ho : ∀ o ∈ os, Offers p s.tracked b o) :
    Ends (liftM (Emit.apply ty op os) : Build Operand) s R fun o s' => ∃ p', Quiet b p s p' s' ∧
      Offers p' s'.tracked b o ∧ (op.Yields ty → p'.roles.typeOf s'.reaching.vars o = ty) ∧
      ∀ F, DenotesAll w b p s os F → op.Yields ty →
        Denotes w b p' s' o ty fun σ => w.apply op (F σ) ty := by
  unfold Emit.apply
  split
  · rename_i c hc
    rw [ends_emit_pure]
    obtain ⟨cs, hcs, hfold⟩ := Option.bind_eq_some_iff.1 hc
    refine ⟨p, .refl h.built, .lit _ _ _ c, fun hop => ty_of_fold op hop hfold, fun F hF hop => ?_⟩
    refine ⟨ty_of_fold op hop hfold, fun {m} hm hr π hπ => ?_⟩
    show m.lit c = _
    rw [hr.lit, ← hF.mean hm hr π hπ, map_mean_of_literals hr _ hcs]
    exact (w.apply_fold op hop hfold).symm
  · rw [ends_emit_bind]
    refine ends_instr h ho fun v g hb hl ha hv => ?_
    rw [ends_emit_pure]
    have hq := quiet_instr hb hl ha
    have hty := Roles.typeOf_value (Roles.set_self p.roles v (.code b ty ⟨op, os, none⟩))
      s.reaching.vars
    refine ⟨_, hq, offers_instr hv, fun _ => hty, fun F hF _ => ⟨hty, fun {m} hm hr π hπ => ?_⟩⟩
    show m.val v (b :: π) = _
    rw [hr.code (Roles.set_self _ _ _) rfl π hπ]
    exact congrArg (fun l => w.apply op l ty) ((hF.quiet hq).mean hm hr π hπ)

/-! ## 3. Each operator -/

variable (hR : Tolerates R)

/-- A unary operator. -/
theorem ends_unary (h : Ready b p s) {op : Unary} {a : Operand} {site : String}
    (ha : Offers p s.tracked b a) :
    Ends (liftM (Emit.unary (.unary op) a site) : Build Operand) s R fun o s' =>
      ∃ p', Quiet b p s p' s' ∧ Offers p' s'.tracked b o ∧ ∀ ty f, Denotes w b p s a ty f →
        Denotes w b p' s' o ty fun σ => w.apply (.unary op) [f σ] ty := by
  unfold Emit.unary
  rw [ends_emit_bind]
  refine ends_emit_operandType h ha.anchors ?_
  refine (ends_apply (w := w) h fun o ho => ?_).mono fun o s' ⟨p', hq, ho, _, hd⟩ => ?_
  · rw [List.mem_singleton.1 ho]
    exact ha
  · refine ⟨p', hq, ho, fun ty f hf => ?_⟩
    have := hd _ (.cons hf .nil) trivial
    rw [hf.ty] at this
    exact this

theorem offers_pair {a c : Operand} (ha : Offers p s.tracked b a) (hc : Offers p s.tracked b c) :
    ∀ o ∈ [a, c], Offers p s.tracked b o := by
  intro o ho
  rcases List.mem_cons.1 ho with rfl | ho
  · exact ha
  · rw [List.mem_singleton.1 ho]
    exact hc

include hR in
/-- A binary operator. -/
theorem ends_binary (h : Ready b p s) {op : Binary} {a c : Operand} {site : String}
    (ha : Offers p s.tracked b a) (hc : Offers p s.tracked b c) :
    Ends (liftM (Emit.binary (.binary op) a c site) : Build Operand) s R fun o s' =>
      ∃ p', Quiet b p s p' s' ∧ Offers p' s'.tracked b o ∧ ∀ ta tc f g, Denotes w b p s a ta f →
        Denotes w b p s c tc g →
          Denotes w b p' s' o ta fun σ => w.apply (.binary op) [f σ, g σ] ta := by
  unfold Emit.binary
  rw [ends_emit_bind]
  refine ends_emit_operandType h ha.anchors ?_
  rw [ends_emit_bind]
  refine ends_emit_operandType h hc.anchors ?_
  dsimp only
  split
  · refine (ends_apply (w := w) h (offers_pair ha hc)).mono fun o s' ⟨p', hq, ho, _, hd⟩ => ?_
    refine ⟨p', hq, ho, fun ta tc f g hf hg => ?_⟩
    have := hd _ (.cons hf (.cons hg .nil)) trivial
    rw [hf.ty] at this
    exact this
  · rw [ends_emit_throw]
    exact hR rfl

include hR in
/-- A comparison. -/
theorem ends_compare (h : Ready b p s) {op : Relation} {a c : Operand} {site : String}
    (ha : Offers p s.tracked b a) (hc : Offers p s.tracked b c) :
    Ends (liftM (Emit.compare (.compare op) a c site) : Build Operand) s R fun o s' =>
      ∃ p', Quiet b p s p' s' ∧ Offers p' s'.tracked b o ∧ ∀ ta tc f g, Denotes w b p s a ta f →
        Denotes w b p s c tc g →
          Denotes w b p' s' o .bit fun σ => w.apply (.compare op) [f σ, g σ] .bit := by
  unfold Emit.compare
  rw [ends_emit_bind]
  refine ends_emit_operandType h ha.anchors ?_
  rw [ends_emit_bind]
  refine ends_emit_operandType h hc.anchors ?_
  split
  · refine (ends_apply (w := w) h (offers_pair ha hc)).mono fun o s' ⟨p', hq, ho, _, hd⟩ => ?_
    exact ⟨p', hq, ho, fun ta tc f g hf hg => hd _ (.cons hf (.cons hg .nil)) rfl⟩
  · rw [ends_emit_throw]
    exact hR rfl

include hR in
/-- A slice, which lies inside its base. -/
theorem ends_slice (h : Ready b p s) {a : Operand} {msb lsb : Nat} {site : String}
    (ha : Offers p s.tracked b a) :
    Ends (liftM (Emit.slice a msb lsb site) : Build Operand) s R fun o s' =>
      ∃ p', Quiet b p s p' s' ∧ Offers p' s'.tracked b o ∧ ∀ ty f, Denotes w b p s a ty f →
        ty.holdsLiterals = true → (lsb ≤ msb ∧ msb < ty.width) ∧
          Denotes w b p' s' o (.unsigned (msb - lsb + 1))
            fun σ => w.apply (.slice msb lsb) [f σ] (.unsigned (msb - lsb + 1)) := by
  unfold Emit.slice
  rw [ends_emit_bind]
  refine ends_emit_operandType h ha.anchors ?_
  split
  · rename_i hlt
    dsimp only
    split
    · rename_i hsame
      rw [ends_emit_pure]
      refine ⟨p, .refl h.built, ha, fun ty f hf hh => ?_⟩
      rw [hf.ty] at hlt hsame
      subst hsame
      refine ⟨hlt, hf.congr fun {m} hm hr π hπ => ?_⟩
      have hty := hf.ty_mean h.built ha.anchors hr (b :: π)
      rw [hf.mean hm hr π hπ] at hty
      exact (w.apply_slice_all hty hlt.1 (by rw [hty]; exact hlt.2)
        (by rw [hty]; exact hh)).symm
    · refine (ends_apply (w := w) h fun o ho => ?_).mono fun o s' ⟨p', hq, ho, _, hd⟩ => ?_
      · rw [List.mem_singleton.1 ho]
        exact ha
      · refine ⟨p', hq, ho, fun ty f hf _ => ?_⟩
        rw [hf.ty] at hlt
        exact ⟨hlt, hd _ (.cons hf .nil) trivial⟩
  · rw [ends_emit_throw]
    exact hR rfl

include hR in
/-- One bit. -/
theorem ends_index (h : Ready b p s) {a k : Operand} {site : String}
    (ha : Offers p s.tracked b a) (hk : Offers p s.tracked b k) :
    Ends (liftM (Emit.index a k site) : Build Operand) s R fun o s' =>
      ∃ p', Quiet b p s p' s' ∧ Offers p' s'.tracked b o ∧ ∀ ta tk f g, Denotes w b p s a ta f →
        Denotes w b p s k tk g → ta.holdsLiterals = true →
          Denotes w b p' s' o .bit fun σ => w.apply .index [f σ, g σ] .bit := by
  unfold Emit.index
  split
  · rename_i c hc
    cases k with
    | value v => cases hc
    | undef ty => cases hc
    | lit c' =>
      cases hc
      refine (ends_slice (w := w) hR h ha).mono fun o s' hslice => ?_
      obtain ⟨p', hq, ho, hd⟩ := hslice
      refine ⟨p', hq, ho, fun ta tk f g hf hg hh => ?_⟩
      obtain ⟨⟨-, hlt⟩, hd⟩ := hd ta f hf hh
      have hw := ((Ty.holdsLiterals_iff ta).1 hh).2
      have hmin : min c.bits wordMax = c.bits := by
        refine Nat.min_eq_left (Nat.le_of_not_lt fun hgt => ?_)
        rw [Nat.min_eq_right (Nat.le_of_lt hgt)] at hlt
        exact absurd (Nat.lt_of_lt_of_le hlt hw) (by decide)
      rw [hmin, Nat.sub_self] at hd
      rw [hmin] at hlt
      refine Denotes.congr (f := fun σ => w.apply (.slice c.bits c.bits) [f σ] .bit) hd
        fun {m} hm hr π hπ => ?_
      have hm' := hq.later.models hm
      rw [hq.vars] at hr
      have hr' := hr.mono hq.later.roles
      have hty := hf.ty_mean h.built ha.anchors hr' (b :: π)
      rw [hf.mean hm' hr' π hπ] at hty
      have hpos := hg.mean hm' hr' π hπ
      rw [show m.mean (.lit c) (b :: π) = c from hr'.lit c] at hpos
      rw [hq.writes, ← hpos]
      exact w.apply_slice_one (by unfold Literal.width; rw [hty]; exact hlt)
  · refine (ends_apply (w := w) h (offers_pair ha hk)).mono fun o s' happly => ?_
    obtain ⟨p', hq, ho, -, hd⟩ := happly
    exact ⟨p', hq, ho, fun ta tk f g hf hg _ => hd _ (.cons hf (.cons hg .nil)) rfl⟩

theorem mapM_operandType (h : Ready b p s) {os : List Operand}
    (ho : ∀ o ∈ os, s.graph.Anchors o) {Q : List Ty → Bench → Prop}
    (hQ : Q (os.map (p.roles.typeOf s.reaching.vars)) s) :
    Ends (liftM (os.mapM fun o => (liftM (Edit.operandType o) : Emit Ty)) : Build (List Ty)) s R
      Q := by
  induction os generalizing Q with
  | nil =>
    rw [List.mapM_nil, ends_emit_pure]
    exact hQ
  | cons o os ih =>
    rw [List.mapM_cons, ends_emit_bind]
    refine ends_emit_operandType h (ho o List.mem_cons_self) ?_
    rw [ends_emit_bind]
    refine ih (fun a ha => ho a (List.mem_cons_of_mem _ ha)) ?_
    rw [ends_emit_pure]
    exact hQ

include hR in
/-- Parts side by side. -/
theorem ends_concat (h : Ready b p s) {os : List Operand} {site : String}
    (ho : ∀ o ∈ os, Offers p s.tracked b o) :
    Ends (liftM (Emit.concat os site) : Build Operand) s R fun o s' =>
      ∃ p', Quiet b p s p' s' ∧ Offers p' s'.tracked b o ∧ ∀ tys F,
        os.map (p.roles.typeOf s.reaching.vars) = tys → DenotesAll w b p s os F →
        (Ty.unsigned (widthSum tys)).holdsLiterals = true →
          Denotes w b p' s' o (.unsigned (widthSum tys))
            fun σ => w.apply .concat (F σ) (.unsigned (widthSum tys)) := by
  unfold Emit.concat
  rw [ends_emit_bind]
  refine mapM_operandType h (fun o hm => (ho o hm).anchors) ?_
  have hsum : ∀ {tys}, os.map (p.roles.typeOf s.reaching.vars) = tys →
      (Ty.unsigned (widthSum tys)).holdsLiterals = true →
      (os.map (p.roles.typeOf s.reaching.vars)).foldl
        (fun n t => Emit.addWidth n t.width) 0 = widthSum tys := by
    rintro _ rfl hh
    have hle : widthSum (os.map (p.roles.typeOf s.reaching.vars)) ≤ storageBits :=
      ((Ty.holdsLiterals_iff _).1 hh).2
    exact (Emit.joinedWidth_eq _).trans (Nat.min_eq_left (Nat.le_trans hle (by decide)))
  have happly : Ends (liftM (Emit.apply (.unsigned ((os.map (p.roles.typeOf
      s.reaching.vars)).foldl (fun n t => Emit.addWidth n t.width) 0)) .concat os) : Build Operand)
      s R fun o s' => ∃ p', Quiet b p s p' s' ∧ Offers p' s'.tracked b o ∧ ∀ tys F,
        os.map (p.roles.typeOf s.reaching.vars) = tys → DenotesAll w b p s os F →
        (Ty.unsigned (widthSum tys)).holdsLiterals = true →
          Denotes w b p' s' o (.unsigned (widthSum tys))
            fun σ => w.apply .concat (F σ) (.unsigned (widthSum tys)) := by
    refine (ends_apply (w := w) h ho).mono fun o s' ⟨p', hq, ho', _, hd⟩ => ?_
    refine ⟨p', hq, ho', fun tys F ht hF hh => ?_⟩
    have := hd F hF trivial
    rw [hsum ht hh] at this
    exact this
  dsimp only
  split
  · rw [ends_emit_throw]
    exact hR rfl
  · rename_i part t htys
    split
    · exact happly
    · rename_i hsigned
      rw [ends_emit_pure]
      refine ⟨p, .refl h.built, ho part List.mem_cons_self, fun tys F ht hF hh => ?_⟩
      rw [htys] at ht
      subst ht
      have htype : p.roles.typeOf s.reaching.vars part = .unsigned (widthSum [t]) := by
        have := (List.cons.inj htys).1
        rw [this]
        show t = ⟨t.width + 0, false⟩
        cases t
        simpa using hsigned
      refine ⟨htype, fun {m} hm hr π hπ => ?_⟩
      have hty := hr.ty_mean (h.built.roles_knows (ho part List.mem_cons_self).anchors.knows)
        (b :: π)
      rw [htype] at hty
      rw [← hF.mean hm hr π hπ]
      exact (w.apply_concat_one hty hh).symm
  · exact happly

include hR in
/-- A choice between two operands of one type. -/
theorem ends_select (h : Ready b p s) {c a d : Operand} {site : String}
    (hc : Offers p s.tracked b c) (ha : Offers p s.tracked b a) (hd : Offers p s.tracked b d) :
    Ends (liftM (Emit.select c a d site) : Build Operand) s R fun o s' =>
      ∃ p', Quiet b p s p' s' ∧ Offers p' s'.tracked b o ∧ ∀ tc ty k f g, Denotes w b p s c tc k →
        Denotes w b p s a ty f → Denotes w b p s d ty g → ty.holdsLiterals = true →
          Denotes w b p' s' o ty fun σ => if (k σ).isTrue then f σ else g σ := by
  unfold Emit.select
  rw [ends_emit_bind]
  refine ends_emit_operandType h hc.anchors ?_
  dsimp only
  split
  · rw [ends_emit_bind, ends_emit_throw]
    exact hR rfl
  rw [ends_emit_bind]
  refine ends_emit_operandType h ha.anchors ?_
  rw [ends_emit_bind]
  refine ends_emit_operandType h hd.anchors ?_
  split
  · rw [ends_emit_bind, ends_emit_throw]
    exact hR rfl
  split
  · rename_i l hl
    rw [ends_emit_pure]
    cases c with
    | value v => cases hl
    | undef ty => cases hl
    | lit l' =>
      cases hl
      refine ⟨p, .refl h.built, ?_, fun tc ty k f g hk hf hg _ => ⟨?_, fun {m} hm hr π hπ => ?_⟩⟩
      · split
        · exact ha
        · exact hd
      · split
        · exact hf.ty
        · exact hg.ty
      · have := hk.mean hm hr π hπ
        rw [show m.mean (.lit l) (b :: π) = l from hr.lit l] at this
        rw [← this]
        split
        · exact hf.mean hm hr π hπ
        · exact hg.mean hm hr π hπ
  · rw [ends_emit_bind]
    have hall : ∀ o ∈ [c, a, d], Offers p s.tracked b o := by
      intro o ho
      rcases List.mem_cons.1 ho with rfl | ho
      · exact hc
      · exact offers_pair ha hd o ho
    refine ends_instr h hall fun v g hb hl hatt hv => ?_
    rw [ends_emit_pure]
    have hq := quiet_instr hb hl hatt
    refine ⟨_, hq, offers_instr hv, fun tc ty k f g hk hf hg hh => ⟨?_, fun {m} hm hr π hπ => ?_⟩⟩
    · rw [← hf.ty]
      exact Roles.typeOf_value (Roles.set_self _ _ _) _
    · show m.val v (b :: π) = _
      rw [hr.code (Roles.set_self _ _ _) rfl π hπ]
      have hm' := hq.later.models hm
      have hr' := hr.mono hq.later.roles
      have hall := (DenotesAll.cons hk (.cons hf (.cons hg .nil))).mean hm' hr' π hπ
      have hfty := hf.ty_mean h.built ha.anchors hr' (b :: π)
      have hgty := hg.ty_mean h.built hd.anchors hr' (b :: π)
      rw [hf.mean hm' hr' π hπ] at hfty
      rw [hg.mean hm' hr' π hπ] at hgty
      rw [hf.ty]
      refine (congrArg (fun l => w.apply .select l ty) hall).trans ?_
      exact w.apply_select hfty hgty hh

include hR in
/-- An operand under another type. -/
theorem ends_cast (h : Ready b p s) {a : Operand} {ty : Ty} {site : String}
    (ha : Offers p s.tracked b a) :
    Ends (liftM (Emit.cast a ty site) : Build Operand) s R fun o s' =>
      ∃ p', Quiet b p s p' s' ∧ Offers p' s'.tracked b o ∧
        p'.roles.typeOf s'.reaching.vars o = ty ∧ ∀ ta f, Denotes w b p s a ta f →
          ta.holdsLiterals = true → Denotes w b p' s' o ty fun σ => w.apply .cast [f σ] ty := by
  unfold Emit.cast
  split
  · rw [ends_emit_bind, ends_emit_throw]
    exact hR rfl
  rw [ends_emit_bind]
  refine ends_emit_operandType h ha.anchors ?_
  split
  · rename_i hsame
    rw [ends_emit_pure]
    refine ⟨p, .refl h.built, ha, hsame, fun ta f hf hh => ?_⟩
    rw [hf.ty] at hsame
    subst hsame
    refine hf.congr fun {m} hm hr π hπ => ?_
    have hty := hf.ty_mean h.built ha.anchors hr (b :: π)
    rw [hf.mean hm hr π hπ] at hty
    exact (w.apply_cast_self hty hh).symm
  · refine (ends_apply (w := w) h fun o ho => ?_).mono fun o s' ⟨p', hq, ho, hty, hd⟩ => ?_
    · rw [List.mem_singleton.1 ho]
      exact ha
    · exact ⟨p', hq, ho, hty trivial, fun ta f hf _ => hd _ (.cons hf .nil) trivial⟩

/-! ## 4. Bringing operands together -/

include hR in
/-- Two operands at one type; those that have one already are left alone. -/
theorem ends_coerce (h : Ready b p s) {a c : Operand} {site : String}
    (ha : Offers p s.tracked b a) (hc : Offers p s.tracked b c) :
    Ends (liftM (Emit.coerce a c site) : Build (Operand × Operand)) s R fun r s' =>
      ∃ p', Quiet b p s p' s' ∧ Offers p' s'.tracked b r.1 ∧ Offers p' s'.tracked b r.2 ∧
        (p.roles.typeOf s.reaching.vars a = p.roles.typeOf s.reaching.vars c → r = (a, c)) := by
  unfold Emit.coerce
  rw [ends_emit_bind]
  refine ends_emit_operandType h ha.anchors ?_
  rw [ends_emit_bind]
  refine ends_emit_operandType h hc.anchors ?_
  split
  · rw [ends_emit_pure]
    exact ⟨p, .refl h.built, ha, hc, fun _ => rfl⟩
  · rename_i hne
    split
    · rw [ends_emit_pure]
      exact ⟨p, .refl h.built, ha, .lit _ _ _ _, fun e => absurd e hne⟩
    · rw [ends_emit_pure]
      exact ⟨p, .refl h.built, .lit _ _ _ _, hc, fun e => absurd e hne⟩
    · split
      · rw [ends_emit_bind]
        refine (ends_cast (w := .zero) hR h hc).mono fun o s' ⟨p', hq, ho, _, _⟩ => ?_
        rw [ends_emit_pure]
        exact ⟨p', hq, hq.offers ha, ho, fun e => absurd e hne⟩
      · rw [ends_emit_throw]
        exact hR rfl

include hR in
/-- An operand at the type of its place; one that has it already is left alone. -/
theorem ends_coerceTo (h : Ready b p s) {a : Operand} {ty : Ty} {site : String}
    (ha : Offers p s.tracked b a) :
    Ends (liftM (Emit.coerceTo a ty site) : Build Operand) s R fun o s' =>
      ∃ p', Quiet b p s p' s' ∧ Offers p' s'.tracked b o ∧
        (p.roles.typeOf s.reaching.vars a = ty → o = a) := by
  unfold Emit.coerceTo
  rw [ends_emit_bind]
  refine ends_emit_operandType h ha.anchors ?_
  split
  · rw [ends_emit_pure]
    exact ⟨p, .refl h.built, ha, fun _ => rfl⟩
  · rename_i hne
    split
    · rw [ends_emit_pure]
      exact ⟨p, .refl h.built, .lit _ _ _ _, fun e => absurd e hne⟩
    · split
      · refine (ends_cast (w := .zero) hR h ha).mono fun o s' hcast => ?_
        obtain ⟨p', hq, ho, -⟩ := hcast
        exact ⟨p', hq, ho, fun e => absurd e hne⟩
      · rw [ends_emit_throw]
        exact hR rfl

include hR in
/-- An operand as a truth value. -/
theorem ends_condition (h : Ready b p s) {a : Operand} {site : String}
    (ha : Offers p s.tracked b a) :
    Ends (liftM (Emit.condition a site) : Build Operand) s R fun o s' =>
      ∃ p', Quiet b p s p' s' ∧ Offers p' s'.tracked b o ∧ ∀ ty f, Denotes w b p s a ty f →
        ∃ g, Denotes w b p' s' o .bit g ∧ ∀ σ, (g σ).isTrue = (f σ).isTrue := by
  unfold Emit.condition
  rw [ends_emit_bind]
  refine ends_emit_operandType h ha.anchors ?_
  split
  · rename_i hbit
    rw [ends_emit_pure]
    refine ⟨p, .refl h.built, ha, fun ty f hf => ⟨f, ?_, fun _ => rfl⟩⟩
    rw [hf.ty, Ty.isBit_iff] at hbit
    rw [← hbit]
    exact hf
  · refine (ends_compare (w := w) hR h ha (.lit _ _ _ _)).mono fun o s' ⟨p', hq, ho, hd⟩ => ?_
    refine ⟨p', hq, ho, fun ty f hf => ⟨_, hd _ _ f _ hf (.lit _), fun σ => ?_⟩⟩
    rw [w.apply_compare, Literal.isTrue_ofBool]
    unfold Relation.holds Literal.isTrue
    rw [Literal.bits_zero]

end Build

end BitFlow
