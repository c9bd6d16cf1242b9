import BitFlow.Proofs.Meaning.Path

/-!
# Definitions that reach the ends of blocks

What the table of definitions records is right if the recorded operand holds what the variable
holds there. The operands of phis and the forwards are right in the same sense. Each step of
reading and sealing keeps all three right, for every meaning that fits the control flow.

Main statements: `Step.sound`, `Steps.sound`; `Sound.resolve` -- an operand holds the same as what
it stands for.
-/

namespace BitFlow

variable {T : Type}

/-! ## 1. Meanings that fit a state -/

/-- What was last written to a variable in a block. -/
abbrev Writes := BlockId → VarId → Option Operand

/-- What `x` holds at the end of `b` as far as `b` is written, on the path through `π`. -/
def Meaning.content (m : Meaning T) (W : Writes) (b : BlockId) (π : List BlockId) (x : VarId) : T :=
  match W b x with
  | some o => m.mean o (b :: π)
  | none => m.store π x

theorem Meaning.content_of_none {m : Meaning T} {W : Writes} {b : BlockId} {x : VarId}
    (h : W b x = none) (π : List BlockId) : m.content W b π x = m.store π x := by
  unfold Meaning.content
  rw [h]

/-- The meaning fits the control flow: it has the edges that are there, and no other ones into
    blocks whose predecessors are final; variables start undefined; and a block that has a
    successor is written to the end. -/
structure Fits (m : Meaning T) (W : Writes) (closing : Option BlockId) (s : Tracked) : Prop where
  entry : m.entry = s.graph.entry
  edge : ∀ {q b}, q ∈ s.graph.preds b → m.edge q b
  closed : ∀ {q b}, s.graph.Closed closing b → m.edge q b → q ∈ s.graph.preds b
  no_entry : ∀ {q}, ¬ m.edge q m.entry
  start : ∀ {x d}, variableById? s.reaching.vars x = some d → m.store [] x = m.undef d.ty
  frozen : ∀ {q b}, q ∈ s.graph.preds b → ∀ π x, m.Path (q :: π) →
    m.store (q :: π) x = m.content W q π x

/-- Every attached phi holds what its variable held when its block was entered. -/
def PhisHold (m : Meaning T) (s : Tracked) : Prop :=
  ∀ {v p}, s.graph.phi? v = some p → m.IsPhi v p.block p.var

/-- **Definitions, operands of phis and forwards are right.** -/
structure Sound (m : Meaning T) (W : Writes) (s : Tracked) : Prop where
  defs : ∀ {b x o}, s.reaching.defs.get? (b, x) = some o → m.Avail o b ∧
    ∀ π, m.Path (b :: π) → m.mean o (b :: π) = m.content W b π x
  unwritten : ∀ {b x}, s.reaching.defs.get? (b, x) = none → W b x = none
  incoming : ∀ {v p o q}, s.graph.phi? v = some p → (o, q) ∈ p.incoming → m.Avail o q ∧
    ∀ π, m.Path (q :: π) → m.mean o (q :: π) = m.store (q :: π) p.var
  forward : ∀ {v o c}, (v, o) ∈ s.graph.forwards.pairs → m.Dom (m.home v) c →
    m.Avail o c ∧ m.Same o (.value v) c ∧ ∀ w π, o = .value w → m.Path (c :: π) → m.home w ≠ c

variable {m : Meaning T} {W : Writes} {closing : Option BlockId} {s t : Tracked}

theorem Fits.congr (h : Fits m W closing s) (hshape : ∀ b, t.graph.shape b = s.graph.shape b)
    (hentry : t.graph.entry = s.graph.entry) (hvars : t.reaching.vars = s.reaching.vars) :
    Fits m W closing t := by
  refine ⟨h.entry.trans hentry.symm, fun {q b} hq => h.edge ?_, fun {q b} hc he => ?_,
    h.no_entry, fun {x d} hd => h.start ?_, fun {q b} hq => h.frozen (q := q) (b := b) ?_⟩
  · rwa [Graph.preds_congr (hshape b)] at hq
  · rw [Graph.closed_congr (hshape b)] at hc
    rw [Graph.preds_congr (hshape b)]
    exact h.closed hc he
  · rwa [hvars] at hd
  · rwa [Graph.preds_congr (hshape b)] at hq

/-! ## 2. Resolved operands -/

/-- Replacing removed values one after the other keeps what an operand holds. -/
theorem Sound.settle (h : Sound m W s) {ps : List (ValueId × Operand)}
    (hps : ∀ p ∈ ps, p ∈ s.graph.forwards.pairs) {o : Operand} {c : BlockId} (ho : m.Avail o c) :
    m.Avail (Forwards.settle ps o) c ∧ m.Same (Forwards.settle ps o) o c ∧
      (Forwards.settle ps o = o ∨
        ∀ w π, Forwards.settle ps o = .value w → m.Path (c :: π) → m.home w ≠ c) := by
  induction ps with
  | nil => exact ⟨ho, .refl o c, .inl rfl⟩
  | cons p ps ih =>
    obtain ⟨v, t⟩ := p
    obtain ⟨i1, i2, i3⟩ := ih fun p hp => hps p (List.mem_cons_of_mem _ hp)
    rw [Forwards.settle_cons]
    by_cases e : Forwards.settle ps o = .value v
    · rw [e, show Operand.replace (.value v) t (.value v) = t from if_pos rfl]
      rw [e] at i1 i2
      obtain ⟨f1, f2, f3⟩ := h.forward (hps _ List.mem_cons_self) (i1 v rfl)
      exact ⟨f1, f2.trans i2, .inr f3⟩
    · rw [Operand.replace_of_ne e]
      exact ⟨i1, i2, i3⟩

/-- **An operand holds the same as what it stands for.** -/
theorem Sound.resolve (h : Sound m W s) (hs : s.graph.Steady) {o : Operand} {c : BlockId}
    (ho : m.Avail o c) : m.Avail (s.graph.resolve o) c ∧ m.Same (s.graph.resolve o) o c ∧
      (s.graph.resolve o = o ∨
        ∀ w π, s.graph.resolve o = .value w → m.Path (c :: π) → m.home w ≠ c) := by
  rw [Graph.resolve_eq_settle hs.forwarding.ordered]
  exact h.settle (fun _ hp => hp) ho

/-- What is recorded at the end of a block holds what the variable holds there. -/
theorem Sound.reached (h : Sound m W s) (hs : s.graph.Steady) {x : VarId} {b : BlockId}
    {o : Operand} (ho : s.reached x b = some o) :
    m.Avail o b ∧ ∀ π, m.Path (b :: π) → m.mean o (b :: π) = m.content W b π x := by
  obtain ⟨a, ha, rfl⟩ := Option.map_eq_some_iff.1 ho
  obtain ⟨h1, h2⟩ := h.defs ha
  obtain ⟨r1, r2, -⟩ := h.resolve hs h1
  exact ⟨r1, fun π hπ => (r2 π hπ).trans (h2 π hπ)⟩

/-! ## 3. Blocks with at most one predecessor -/

/-- There is no way around a single predecessor, and what is available at its end is not computed
    in the block itself. -/
theorem Meaning.avail_through {q b : BlockId} {o : Operand}
    (hq : ∀ p, m.edge p b → p = q) (hb : b ≠ m.entry) (ho : m.Avail o q) :
    m.Avail o b ∧ ∀ π, m.Path (b :: π) → ∃ π', π = q :: π' ∧ m.Path (q :: π') ∧
      m.mean o (b :: π) = m.mean o π := by
  have hstep : ∀ {π}, m.Path (b :: π) → ∃ π', π = q :: π' ∧ m.Path (q :: π') := by
    intro π hπ
    cases hπ with
    | entry => exact absurd rfl hb
    | @step p _ π' hp he =>
      obtain rfl := hq p he
      exact ⟨π', rfl, hp⟩
  refine ⟨fun w hw π hπ => ?_, fun π hπ => ?_⟩
  · obtain ⟨π', rfl, hp⟩ := hstep hπ
    exact List.mem_cons_of_mem _ (ho w hw π' hp)
  · obtain ⟨π', rfl, hp⟩ := hstep hπ
    refine ⟨π', rfl, hp, Meaning.mean_step (fun w hw e => ?_) _⟩
    -- where `b` is reached for the first time, the operand got its content before
    obtain ⟨l, r, hsplit, hr⟩ := Trail.split_last (List.mem_cons_self (a := b) (l := q :: π'))
    have hfirst : m.Path (b :: r) := by
      rw [hsplit] at hπ
      exact hπ.tail
    obtain ⟨r', rfl, hr'⟩ := hstep hfirst
    have := ho w hw r' hr'
    rw [e] at this
    exact hr this

/-- Why a definition that is found by a read is right. -/
theorem Sound.reads (h : Sound m W s) (hs : Sane closing s) (hfit : Fits m W closing s)
    {x : VarId} {b : BlockId} {o : Operand} (ho : s.Reads x b o) :
    m.Avail o b ∧ ∀ π, m.Path (b :: π) → m.mean o (b :: π) = m.content W b π x := by
  cases ho with
  | again ho => exact h.reached hs.steady ho
  | nowhere hn hsealed hp d hd ho =>
    subst ho
    refine ⟨Meaning.avail_undef _ b, fun π hπ => ?_⟩
    rw [Meaning.content_of_none (h.unwritten hn)]
    cases hπ with
    | entry => exact (hfit.start hd).symm
    | step _ he =>
      have := hfit.closed (.inl hsealed) he
      rw [hp] at this
      cases this
  | through hn hsealed q hp ho =>
    obtain ⟨h1, h2⟩ := h.reached hs.steady ho
    have hq : q ∈ s.graph.preds b := by
      rw [hp]
      exact List.mem_cons_self
    have honly : ∀ p, m.edge p b → p = q := by
      intro p he
      have := hfit.closed (.inl hsealed) he
      rw [hp] at this
      exact List.mem_singleton.1 this
    have hb : b ≠ m.entry := by
      rintro rfl
      exact hfit.no_entry (hfit.edge hq)
    obtain ⟨g1, g2⟩ := Meaning.avail_through honly hb h1
    refine ⟨g1, fun π hπ => ?_⟩
    obtain ⟨π', rfl, hp', hmean⟩ := g2 π hπ
    rw [hmean, h2 π' hp', Meaning.content_of_none (h.unwritten hn), hfit.frozen hq π' x hp']

/-! ## 4. Each step -/

/-- A complete phi whose check finds one operand beside itself is superfluous in every fitting
    meaning. -/
theorem Sound.superfluous (h : Sound m W s) (hs : Sane closing s) (hfit : Fits m W closing s)
    (hphis : PhisHold m s) {v : ValueId} {p : OwnedPhi} {o : Operand}
    (hp : s.graph.phi? v = some p) (hf : v ∉ s.reaching.filling)
    (hw : ∀ b x, (x, v) ∉ s.reaching.pending.image b)
    (ho : soleOperand (.value v) (.undef p.ty) p.operands = some o) :
    m.Superfluous v p.block p.var o := by
  obtain ⟨hsrc, hclosed⟩ := hs.complete hp hf hw
  obtain ⟨hall, -⟩ := soleOperand_eq_some ho
  refine ⟨hphis hp, (hs.anchors_sole hp ho).2, fun {q} he => ?_, fun hb => ?_⟩
  · have hq := hfit.closed hclosed he
    rw [← hsrc] at hq
    obtain ⟨⟨a, q'⟩, hm, rfl⟩ := List.mem_map.1 hq
    obtain ⟨h1, h2⟩ := h.incoming hp hm
    exact ⟨a, hall a (List.mem_map.2 ⟨_, hm, rfl⟩), h1, h2⟩
  · -- no edge leads to the entry, so a phi there has no operand
    have hnil : p.incoming = [] := by
      refine List.eq_nil_iff_forall_not_mem.2 fun e he => ?_
      have : e.2 ∈ s.graph.preds p.block := by
        rw [← hsrc]
        exact List.mem_map.2 ⟨e, he, rfl⟩
      exact hfit.no_entry (hb ▸ hfit.edge this)
    have hund : o = .undef p.ty := by
      unfold OwnedPhi.operands at ho
      rw [hnil] at ho
      exact (Option.some.inj ho).symm
    subst hund
    obtain ⟨d, hd, ht⟩ := hs.declared hp
    refine ⟨fun w hc => (by cases hc), ?_⟩
    rw [hfit.start hd, ht]
    rfl

/-- Recording what a variable holds keeps definitions right. -/
theorem Sound.defs_record {r : Reaching} {x : VarId} {b : BlockId} {o : Operand}
    (h : ∀ {c z a}, r.defs.get? (c, z) = some a → m.Avail a c ∧
      ∀ π, m.Path (c :: π) → m.mean a (c :: π) = m.content W c π z)
    (ho : m.Avail o b ∧ ∀ π, m.Path (b :: π) → m.mean o (b :: π) = m.content W b π x)
    {c : BlockId} {z : VarId} {a : Operand}
    (ha : (r.record x b o).defs.get? (c, z) = some a) :
    m.Avail a c ∧ ∀ π, m.Path (c :: π) → m.mean a (c :: π) = m.content W c π z := by
  rw [Reaching.get?_record] at ha
  split at ha
  · rename_i e
    obtain ⟨rfl, rfl⟩ := Prod.mk.inj e
    cases ha
    exact ho
  · exact h ha

theorem Sound.unwritten_record (h : Sound m W s) {x z : VarId} {b c : BlockId} {o : Operand}
    (ha : (s.reaching.record x b o).defs.get? (c, z) = none) : W c z = none := by
  rw [Reaching.get?_record] at ha
  split at ha
  · cases ha
  · exact h.unwritten ha

/-- A new phi, recorded in a block in which its variable is not written. -/
theorem Sound.withPhi (h : Sound m W s) {b : BlockId} {x : VarId} {ty : Ty}
    (hn : s.reaching.defs.get? (b, x) = none) (hnew : m.IsPhi s.graph.nextValue b x)
    (hg : t.graph = s.graph.withPhi b x ty)
    (hd : t.reaching.defs = (s.reaching.record x b (.value s.graph.nextValue)).defs) :
    Sound m W t := by
  have hval : m.Avail (.value s.graph.nextValue) b ∧ ∀ π, m.Path (b :: π) →
      m.mean (.value s.graph.nextValue) (b :: π) = m.content W b π x := by
    refine ⟨Meaning.avail_value ?_, fun π hπ => ?_⟩
    · rw [hnew.home]
      exact .refl b
    · rw [Meaning.content_of_none (h.unwritten hn)]
      exact hnew.val π hπ
  refine ⟨fun {c z a} ha => ?_, fun {c z} ha => ?_, fun {v p o q} hp hm => ?_,
    fun {v o c} hm => ?_⟩
  · rw [hd] at ha
    exact Sound.defs_record h.defs hval ha
  · rw [hd] at ha
    exact h.unwritten_record ha
  · rw [hg, Graph.phi?_withPhi] at hp
    split at hp
    · cases hp
      cases hm
    · exact h.incoming hp hm
  · rw [hg] at hm
    exact h.forward hm

/-- Retiring a superfluous phi keeps everything right. -/
theorem Sound.retired (h : Sound m W s) (hs : Sane closing s) (hfit : Fits m W closing s)
    (hphis : PhisHold m s) {v : ValueId} {p : OwnedPhi} {o : Operand} {g : Graph}
    (hp : s.graph.phi? v = some p) (hf : v ∉ s.reaching.filling)
    (hw : ∀ b x, (x, v) ∉ s.reaching.pending.image b)
    (ho : soleOperand (.value v) (.undef p.ty) p.operands = some o)
    (hg : Graph.Retired v o s.graph g) : Sound m W ⟨g, s.reaching.reroute v o⟩ := by
  have hsup := h.superfluous hs hfit hphis hp hf hw ho
  have hdefs := Reaching.get?_reroute hs.mirrored v o
  have hrepl : ∀ {a c}, m.Avail a c → m.Avail (Operand.replace (.value v) o a) c ∧
      m.Same (Operand.replace (.value v) o a) a c := by
    intro a c ha
    by_cases e : a = .value v
    · subst e
      rw [show Operand.replace (.value v) o (.value v) = o from if_pos rfl]
      have hdom := ha v rfl
      rw [hsup.phi.home] at hdom
      exact ⟨(hsup.replace_phi hdom).1, (hsup.replace_phi hdom).2.1⟩
    · rw [Operand.replace_of_ne e]
      exact ⟨ha, .refl a c⟩
  refine ⟨fun {c z a} ha => ?_, fun {c z} ha => ?_, fun {w p' a q} hp' hm => ?_,
    fun {w a c} hm hdom => ?_⟩
  · change (s.reaching.reroute v o).defs.get? (c, z) = some a at ha
    rw [hdefs] at ha
    obtain ⟨a', ha', rfl⟩ := Option.map_eq_some_iff.1 ha
    obtain ⟨h1, h2⟩ := h.defs ha'
    obtain ⟨r1, r2⟩ := hrepl h1
    exact ⟨r1, fun π hπ => (r2 π hπ).trans (h2 π hπ)⟩
  · change (s.reaching.reroute v o).defs.get? (c, z) = none at ha
    rw [hdefs, Option.map_eq_none_iff] at ha
    exact h.unwritten ha
  · change g.phi? w = some p' at hp'
    rw [hg.phi?] at hp'
    split at hp'
    · cases hp'
    · obtain ⟨p₀, hp₀, rfl⟩ := Option.map_eq_some_iff.1 hp'
      obtain ⟨a', hm', rfl⟩ := OwnedPhi.mem_incoming_replace.1 hm
      obtain ⟨h1, h2⟩ := h.incoming hp₀ hm'
      obtain ⟨r1, r2⟩ := hrepl h1
      exact ⟨r1, fun π hπ => (r2 π hπ).trans (h2 π hπ)⟩
  · change (w, a) ∈ g.forwards.pairs at hm
    rw [hg.forwards, Table.pairs_insert_of_not_mem (hs.steady.forwarding.not_mem_of_attached
      (Graph.attached_of_phi? hp)), List.mem_cons] at hm
    rcases hm with e | hm
    · obtain ⟨rfl, rfl⟩ := Prod.mk.inj e
      rw [hsup.phi.home] at hdom
      exact hsup.replace_phi hdom
    · exact h.forward hm hdom

variable {floor : Nat} {scope : VarId → Prop} {new : Option NewPhi} {made : List NewPhi}

/-- The new phi of a step holds what it should. -/
theorem Step.phisHold (hst : Step floor scope closing s new t) (hphis : PhisHold m s)
    (hnew : ∀ n ∈ new, m.IsPhi n.value n.block n.var) : PhisHold m t := by
  intro v p hp
  rcases hst.phi_origin hp with ⟨p₀, hp₀, e1, e2⟩ | e
  · rw [← e1, ← e2]
    exact hphis hp₀
  · exact hnew _ e

/-- **Each step keeps definitions, operands of phis and forwards right.** -/
theorem Step.sound (hst : Step floor scope closing s new t) (hs : Sane closing s)
    (hfit : Fits m W closing s) (hphis : PhisHold m s)
    (hnew : ∀ n ∈ new, m.IsPhi n.value n.block n.var) (h : Sound m W s) : Sound m W t := by
  cases hst with
  | opened _ _ _ _ _ hn => exact h.withPhi hn (hnew _ rfl) rfl rfl
  | awaited _ _ _ _ hn => exact h.withPhi hn (hnew _ rfl) rfl rfl
  | started _ _ _ => exact ⟨h.defs, h.unwritten, h.incoming, h.forward⟩
  | @pushed v p o q _ _ hp hq ho =>
    have hmem : q ∈ s.graph.preds p.block :=
      hq.subset (List.mem_append_right _ List.mem_cons_self)
    obtain ⟨h1, h2⟩ := h.reached hs.steady ho
    refine ⟨h.defs, h.unwritten, fun {w p' a r} hp' hm => ?_, fun {w a c} hm => ?_⟩
    · rw [show (s.pushed v p o q).graph.phi? w = _ from Graph.phi?_withIncoming hp o q w] at hp'
      split at hp'
      · cases hp'
        rcases List.mem_append.1 hm with hm | hm
        · obtain ⟨i1, i2⟩ := h.incoming hp hm
          exact ⟨i1, i2⟩
        · obtain ⟨rfl, rfl⟩ := Prod.mk.inj (List.mem_singleton.1 hm)
          exact ⟨h1, fun π hπ => (h2 π hπ).trans (hfit.frozen hmem π p.var hπ).symm⟩
      · exact h.incoming hp' hm
    · rw [show (s.pushed v p o q).graph.forwards = _ from
        s.graph.forwards_withIncoming v _ o q] at hm
      exact h.forward hm
  | filled _ _ _ _ => exact ⟨h.defs, h.unwritten, h.incoming, h.forward⟩
  | retired _ hp hf hw ho hg => exact h.retired hs hfit hphis hp hf hw ho hg
  | recorded _ ho =>
    exact ⟨Sound.defs_record h.defs (h.reads hs hfit ho), h.unwritten_record, h.incoming,
      h.forward⟩
  | alike ha =>
    refine ⟨fun {b x o} hd => ?_, fun {b x} hd => ?_, fun {v p o q} hp hm => ?_,
      fun {v o c} hm => ?_⟩
    · rw [ha.defs] at hd
      exact h.defs hd
    · rw [ha.defs] at hd
      exact h.unwritten hd
    · rw [ha.graph.phi?] at hp
      exact h.incoming hp hm
    · rw [ha.graph.forwards] at hm
      exact h.forward hm

/-- **A chain of steps keeps definitions, operands of phis and forwards right.** -/
theorem Steps.sound (hst : Steps floor scope closing s made t) (hs : Sane closing s)
    (hf : floor ≤ s.graph.values.size) (hfit : Fits m W closing s) (hphis : PhisHold m s)
    (hnew : ∀ n ∈ made, m.IsPhi n.value n.block n.var) (h : Sound m W s) :
    Sound m W t ∧ PhisHold m t ∧ Fits m W closing t := by
  induction hst with
  | refl s => exact ⟨h, hphis, hfit⟩
  | cons hst _ ih =>
    have hs' := hs.step hst
    have hk := Step.kept hs hf hst
    have hnew' := fun n hn => hnew n (List.mem_append_left _ (Option.mem_toList.2 hn))
    refine ih hs' (Nat.le_trans hf hk.size) (hfit.congr hk.shape hk.entry hk.vars)
      (hst.phisHold hphis hnew') (fun n hn => hnew n (List.mem_append_right _ hn)) ?_
    exact hst.sound hs hfit hphis hnew' h

end BitFlow
