import BitFlow.Proofs.Reaching.Quiet

/-!
# Reads answer with what came early

Of the values of a graph let the first `n` be old. An operand is early if it names an old value or a
phi, or no value at all: it names no new instruction. As long as phis, forwards and definitions hold
early operands only, a read answers with an early operand, and they still do so after it. For what a
phi is filled with has been read, and what a removed phi is replaced by was one of its operands.
Nothing else is asked of the graph, and the read may fail.

An operand of a new instruction came before that instruction, or is a phi; a replacement keeps that.

Main statement: `Track.early_read`.
-/

namespace BitFlow

variable {n : Nat}

/-! ## 1. Early operands -/

namespace Graph

variable {g g' : Graph} {o : Operand} {v w : ValueId}

/-- The operand names one of the first `n` values or a phi, if it names a value. -/
def Prior (n : Nat) (g : Graph) (o : Operand) : Prop :=
  ∀ w, o = .value w → w.index < n ∨ g.IsPhi w

namespace Prior

theorem undef (ty : Ty) : g.Prior n (.undef ty) := fun _ h => by cases h

theorem phi (h : g.IsPhi v) : g.Prior n (.value v) := fun _ e => by
  cases e
  exact .inr h

theorem mono (h : g.Prior n o) (hq : g.Quiet g') : g'.Prior n o := fun w hw =>
  (h w hw).imp_right hq.isPhi

end Prior

/-- **Phis and forwards hold early operands**, and the operands of new instructions come before
    these or are phis. -/
structure Early (n : Nat) (g : Graph) : Prop where
  phis : ∀ {v x o}, g.value? v = some x → x.isPhi = true → o ∈ x.operands → g.Prior n o
  instrs : ∀ {v x w}, g.value? v = some x → x.isPhi = false → n ≤ v.index →
    .value w ∈ x.operands → w.index < v.index ∨ g.IsPhi w
  forwards : ∀ {v o}, g.forwards.get? v = some o → g.Prior n o

/-- No instruction was touched, and an early graph is early again. -/
structure Discreet (n : Nat) (g g' : Graph) : Prop where
  quiet : g.Quiet g'
  early : g.Early n → g'.Early n

namespace Discreet

theorem refl (g : Graph) : g.Discreet n g := ⟨.refl g, id⟩

instance : Trans (Discreet n) (Discreet n) (Discreet n) :=
  ⟨fun h h' => ⟨h.quiet.trans h'.quiet, h'.early ∘ h.early⟩⟩

/-- Every value has the operands that it had, and early ones. -/
theorem of_operands (hq : g.Quiet g')
    (hops : ∀ {v x o}, g'.value? v = some x → o ∈ x.operands →
      g.Prior n o ∨ ∃ z, g.value? v = some z ∧ o ∈ z.operands)
    (hforwards : ∀ {v o}, g'.forwards.get? v = some o →
      g.Prior n o ∨ g.forwards.get? v = some o) : g.Discreet n g' where
  quiet := hq
  early := fun h => by
    refine ⟨fun {v x o} hx hphi ho => ?_, fun {v x w} hx hphi hn hw => ?_, fun ho => ?_⟩
    · refine Prior.mono ?_ hq
      rcases hops hx ho with ho | ⟨z, hz, ho⟩
      · exact ho
      · obtain ⟨x', hx', -, hsame⟩ := hq.value hz
        cases hx.symm.trans hx'
        exact h.phis hz (hsame.symm.trans hphi) ho
    · rcases hops hx hw with ho | ⟨z, hz, ho⟩
      · exact (ho w rfl).imp (Nat.lt_of_lt_of_le · hn) hq.isPhi
      · obtain ⟨x', hx', -, hsame⟩ := hq.value hz
        cases hx.symm.trans hx'
        exact (h.instrs hz (hsame.symm.trans hphi) hn ho).imp_right hq.isPhi
    · refine Prior.mono ?_ hq
      exact (hforwards ho).elim id fun ho => h.forwards ho

/-- The operands are the same. -/
theorem of_values (hq : g.Quiet g') (hv : ∀ v, g'.value? v = g.value? v)
    (hforwards : g'.forwards = g.forwards) : g.Discreet n g' :=
  of_operands hq (fun hx ho => .inr ⟨_, (hv _).symm.trans hx, ho⟩) fun ho => .inr (hforwards ▸ ho)

theorem addUses (g : Graph) (u : User) (ops : List Operand) : g.Discreet n (g.addUses u ops) :=
  of_values (.addUses g u ops) (value?_addUses g u ops) (by rw [addUses_eq])

theorem removeUses (g : Graph) (u : User) (ops : List Operand) :
    g.Discreet n (g.removeUses u ops) :=
  of_values (.removeUses g u ops) (value?_removeUses g u ops) (by rw [removeUses_eq])

/-- A value changes, but not its type and kind, and it takes early operands only. -/
theorem updateValue {v : ValueId} {f : Value → Value}
    (hf : ∀ x, g.value? v = some x → (f x).ty = x.ty ∧ (f x).isPhi = x.isPhi)
    (hops : ∀ x, g.value? v = some x → ∀ o ∈ (f x).operands, g.Prior n o ∨ o ∈ x.operands) :
    g.Discreet n (g.updateValue v f) := by
  refine of_operands (.updateValue hf) (fun {w x o} hx ho => ?_) .inr
  rw [value?_updateValue] at hx
  split at hx
  · rename_i e
    subst e
    obtain ⟨z, hz, rfl⟩ := Option.map_eq_some_iff.1 hx
    exact (hops z hz o ho).imp_right fun ho => ⟨z, hz, ho⟩
  · exact .inr ⟨x, hx, ho⟩

end Discreet

/-- What an early operand stands for is early. -/
theorem Early.resolve (h : g.Early n) (ho : g.Prior n o) : g.Prior n (g.resolve o) :=
  of_resolve (G := g.Prior n) (fun _ hnext => h.forwards hnext) ho

end Graph

/-! ## 2. Operations on the graph -/

namespace Edit

variable {g : Graph} {v : ValueId} {o : Operand}

open BitFlow.Graph (Discreet)

/-- The computation leaves an early graph early. -/
abbrev Heeds (n : Nat) {α : Type} (g : Graph) (x : Edit α) : Prop :=
  Advances (Discreet n) (fun _ _ => True) x g

theorem heeds_updateValue (v : ValueId) {f : Value → Value}
    (hf : ∀ x, g.value? v = some x → (f x).ty = x.ty ∧ (f x).isPhi = x.isPhi)
    (hops : ∀ x, g.value? v = some x → ∀ o ∈ (f x).operands, g.Prior n o ∨ o ∈ x.operands) :
    Heeds n g (updateValue v f) :=
  .looked (.refl g) (looks_value v) (ends_seeValue v) fun _ _ => ⟨.updateValue hf hops, trivial⟩

theorem heeds_updateBlock (b : BlockId) {f : Block → Block} (hf : ∀ y, (f y).instrs = y.instrs) :
    Heeds n g (updateBlock b f) :=
  .looked (.refl g) (looks_block b) (Ends.of_run fun _ _ _ => trivial) fun _ _ =>
    ⟨.of_values (.updateBlock g b hf) (fun _ => rfl) rfl, trivial⟩

theorem heeds_addUses (u : User) (ops : List Operand) :
    Heeds n g (modify (·.addUses u ops) : Edit PUnit) := ⟨.addUses g u ops, trivial⟩

/-- A new phi has no operands. -/
theorem heeds_appendPhi (b : BlockId) (x : VarId) (ty : Ty) :
    Advances (Discreet n) (fun t v => t.IsPhi v) (appendPhi b x ty) g := by
  refine .looked (.refl g) (looks_block b) (Ends.of_run fun _ _ _ => trivial) fun _ _ => ?_
  refine ⟨.of_operands ((Graph.Quiet.pushPhi g ty _ b _).trans (.updateBlock _ b fun _ => rfl))
    (fun {v z o} hz ho => ?_) .inr, _, (Graph.value?_pushValue ..).trans (if_pos rfl), rfl⟩
  rw [Graph.value?_updateBlock, Graph.value?_pushValue] at hz
  split at hz
  · cases hz
    cases ho
  · exact .inr ⟨z, hz, ho⟩

theorem heeds_pushIncoming (v : ValueId) (ho : g.Prior n o) (q : BlockId) :
    Heeds n g (pushIncoming v o q) := by
  refine .looked (.refl g) (looks_value v) (ends_seeValue v) fun x hx => ?_
  split
  · exact .throw (.refl g) _
  · rename_i p hk
    refine .bind (A := fun _ _ => True) ⟨.updateValue (fun y hy => ⟨rfl, ?_⟩) fun y hy a ha => ?_,
      trivial⟩ fun _ _ _ _ => heeds_addUses _ _
    · cases hx.symm.trans hy
      unfold Value.isPhi
      rw [hk]
    · cases hx.symm.trans hy
      have hmem : a ∈ (p.incoming ++ [(o, q)]).map Prod.fst := ha
      rw [List.map_append] at hmem
      refine (List.mem_append.1 hmem).symm.imp (fun hnew => ?_) fun hold => ?_
      · rwa [List.mem_singleton.1 hnew]
      · unfold Value.operands
        rwa [hk]

/-- An early operand in place of a value. -/
theorem heeds_replaceUses (v : ValueId) (ho : g.Prior n o) : Heeds n g (replaceUses v o) := by
  refine .look (.bind (A := fun _ _ => True) ⟨.of_values (.reuse rfl rfl) (fun _ => rfl) rfl,
    trivial⟩ fun _ g₁ h₁ _ => ?_)
  refine .bind (.forM .refl _ fun u _ g₂ h₂ => ?_) fun _ g₃ _ _ => .pure (.refl g₃) trivial
  have ho₂ := (ho.mono h₁.quiet).mono h₂.quiet
  cases u with
  | value w =>
    refine .bind (heeds_updateValue w (fun x _ => ⟨rfl, Value.isPhi_replace _ _ x⟩)
      fun x _ a ha => ?_) fun _ _ _ _ => heeds_addUses _ _
    rw [Value.operands_replace] at ha
    obtain ⟨a', ha', rfl⟩ := List.mem_map.1 ha
    unfold Operand.replace
    split
    · exact .inl ho₂
    · exact .inr ha'
  | branch b =>
    exact .bind (heeds_updateBlock b fun _ => rfl) fun _ _ _ _ => heeds_addUses _ _

theorem heeds_detach (hv : g.IsPhi v) : Heeds n g (detach v) := by
  refine .looked (.refl g) (looks_value v) (ends_seeValue v) fun x hx => ?_
  obtain ⟨x', hx', hphi⟩ := hv
  cases hx.symm.trans hx'
  split
  · exact .pure (.refl g) trivial
  · refine .bind (heeds_updateBlock _ fun y => by rw [if_pos hphi]) fun _ g₁ _ _ => ?_
    refine .bind (A := fun _ _ => True) ⟨.removeUses g₁ _ _, trivial⟩ fun _ g₂ _ _ => ?_
    exact ⟨.updateValue (fun _ _ => ⟨rfl, rfl⟩) fun _ _ _ ha => .inr ha, trivial⟩

end Edit

/-! ## 3. Graph and tables -/

/-- **Phis, forwards and definitions hold early operands.** -/
structure Tracked.Early (n : Nat) (s : Tracked) : Prop where
  graph : s.graph.Early n
  defs : ∀ {q o}, s.reaching.defs.get? q = some o → s.graph.Prior n o

/-- No instruction was touched, and if graph and tables were early, they are so again. -/
structure Tracked.Discreet (n : Nat) (s t : Tracked) : Prop where
  quiet : s.Quiet t
  early : s.Early n → t.Early n

namespace Tracked.Discreet

theorem refl (s : Tracked) : s.Discreet n s := ⟨.refl s, id⟩

instance : Trans (Tracked.Discreet n) (Tracked.Discreet n) (Tracked.Discreet n) :=
  ⟨fun h h' => ⟨h.quiet.trans h'.quiet, h'.early ∘ h.early⟩⟩

end Tracked.Discreet

namespace Track

variable {α β : Type} {s : Tracked} {v : ValueId} {o : Operand} {A : Tracked → α → Prop}
  {B : Tracked → β → Prop}

open Tracked (Discreet)

/-- The computation leaves early graph and tables early, and its answers satisfy `A`. -/
abbrev Heeds (n : Nat) (s : Tracked) (x : Track α) (A : Tracked → α → Prop) : Prop :=
  Advances (Discreet n) A x s

/-- The answer is early. -/
abbrev AnswersEarly (n : Nat) (t : Tracked) (o : Operand) : Prop := t.graph.Prior n o

theorem heeds_edit {x : Edit α} {A : Graph → α → Prop}
    (hx : Advances (Graph.Discreet n) A x s.graph) :
    Heeds n s (liftM x : Track α) fun t => A t.graph :=
  Advances.focus hx (fun _ hg => ⟨.of_graph hg.quiet rfl rfl, fun h =>
    ⟨hg.early h.graph, fun ho => (h.defs ho).mono hg.quiet⟩⟩) fun _ _ _ ha => ha

/-- A look at the graph, and what follows it. -/
theorem heeds_look {x : Edit α} (hx : Looks x) {f : α → Track β} (hf : ∀ a, Heeds n s (f a) B) :
    Heeds n s ((liftM x : Track α) >>= f) B :=
  .looked (.refl s) (.focus (fun _ => rfl) hx) (A := fun _ => True)
    (Ends.of_run fun _ _ _ => trivial) fun a _ => hf a

/-- The tables change, and hold early operands only. -/
theorem heeds_onTables {f : Reaching → Reaching} (hq : s.Quiet ⟨s.graph, f s.reaching⟩)
    (hdefs : ∀ {q o}, (f s.reaching).defs.get? q = some o →
      s.graph.Prior n o ∨ s.reaching.defs.get? q = some o) :
    Heeds n s (onTables f) fun _ _ => True :=
  ⟨⟨hq, fun h => ⟨h.graph, fun ho => (hdefs ho).elim id fun ho => h.defs ho⟩⟩, trivial⟩

/-- Counts, names and the list of the phis being filled change. -/
theorem heeds_onCounts {f : Reaching → Reaching} (hvars : (f s.reaching).vars = s.reaching.vars)
    (hpending : (f s.reaching).pending = s.reaching.pending)
    (hdefs : (f s.reaching).defs = s.reaching.defs) : Heeds n s (onTables f) fun _ _ => True :=
  heeds_onTables (.of_graph (.refl _) hvars hpending) fun ho => .inr (hdefs ▸ ho)

theorem heeds_record (ho : s.graph.Prior n o) (x : VarId) (b : BlockId) :
    Heeds n s (onTables (·.record x b o)) fun _ _ => True := by
  refine heeds_onTables (.of_graph (.refl _) rfl rfl) fun {q a} ha => ?_
  rw [Reaching.get?_record] at ha
  split at ha
  · cases ha
    exact .inl ho
  · exact .inr ha

theorem heeds_resolve (hs : s.Early n) (ho : s.graph.Prior n o) :
    Heeds n s (liftM (Edit.resolve o) : Track Operand) (AnswersEarly n) :=
  heeds_edit (A := fun g o => g.Prior n o) ⟨.refl _, hs.graph.resolve ho⟩

/-! ## 4. Removal -/

/-- A phi is retired for an early operand. -/
theorem heeds_retire (hv : s.graph.IsPhi v) (ho : s.graph.Prior n o) :
    Heeds n s (retire v o) fun _ _ => True := by
  refine .bind (heeds_edit (Edit.heeds_replaceUses v ho)) fun former s₁ h₁ _ => ?_
  have hv₁ := h₁.quiet.graph.isPhi hv
  refine .bind (heeds_edit (Edit.heeds_detach hv₁)) fun _ s₂ h₂ _ => ?_
  have ho₂ := (ho.mono h₁.quiet.graph).mono h₂.quiet.graph
  refine .bind (heeds_edit (A := fun _ _ => True)
    ⟨.of_operands (.reuse rfl rfl) (fun hx ha => .inr ⟨_, hx, ha⟩) fun {w a} ha => ?_, trivial⟩)
    fun _ s₃ h₃ _ => ?_
  · have hget : (s₂.graph.forwards.insert v o).get? w = some a := ha
    rw [Table.get?_insert] at hget
    split at hget
    · cases hget
      exact .inl ho₂
    · exact .inr hget
  have ho₃ := ho₂.mono h₃.quiet.graph
  obtain ⟨_, _, hroute⟩ := s₃.reaching.reroute_eq v o
  refine .bind (heeds_onTables (.of_graph (.refl _) ?_ ?_) fun {q a} ha => ?_) fun _ s₄ _ _ =>
    .pure (.refl s₄) trivial
  · show (s₃.reaching.reroute v o).vars = _
    rw [hroute]
  · show (s₃.reaching.reroute v o).pending = _
    rw [hroute]
  · have hget : (s₃.reaching.reroute v o).defs.get? q = some a := ha
    unfold Reaching.reroute at hget
    rw [Reaching.get?_foldl_record] at hget
    split at hget
    · cases hget
      exact .inl ho₃
    · exact .inr hget

/-- What a superfluous phi stands for is early. -/
theorem prior_of_trivialReplacement {g : Graph} (hg : g.Early n)
    (h : g.trivialReplacement v = .ok (some o)) : g.Prior n o := by
  obtain ⟨x, hx, hphi, ho | rfl⟩ := exists_of_trivialReplacement h
  · exact hg.phis hx hphi ho
  · exact .undef _

theorem heeds_recheck {remove : ValueId → Track Operand}
    (hremove : ∀ u t, t.Early n → t.graph.IsPhi u → Heeds n t (remove u) fun _ _ => True)
    (hs : s.Early n) (v : ValueId) (u : User) :
    Heeds n s (recheck remove v u) fun _ _ => True := by
  cases u with
  | branch b => exact .pure (.refl s) trivial
  | value w =>
    refine .look ?_
    split
    · exact .pure (.refl s) trivial
    · refine .looked (.refl s) (.focus (fun _ => rfl) (Edit.looks_value w))
        ((ends_lift _).2 (Edit.ends_seeValue w)) fun x hx => ?_
      split
      · rename_i hcond
        rw [Bool.and_eq_true] at hcond
        exact (hremove w s hs ⟨x, hx, hcond.1⟩).discard
      · exact .pure (.refl s) trivial

theorem heeds_removeTrivialWithin (k : Nat) (v : ValueId) (s : Tracked) (hs : s.Early n)
    (hv : s.graph.IsPhi v) : Heeds n s (removeTrivialWithin k v) (AnswersEarly n) := by
  induction k generalizing v s with
  | zero => exact .throw (.refl s) _
  | succ k ih =>
    refine heeds_look (Edit.looks_value v) fun x => ?_
    split
    · refine .looked (.refl s) (looks_ask _) (ends_asked _) fun o? ho? => ?_
      cases o? with
      | none => exact .pure (.refl s) (.phi hv)
      | some o =>
        have ho := prior_of_trivialReplacement hs.graph ho?
        refine .bind (heeds_retire hv ho) fun former t ht _ => ?_
        refine .bind (.forM .refl _ fun u _ t' ht' => ?_) fun _ t' ht' _ => ?_
        · exact heeds_recheck (fun w u hu hw => (ih w u hu hw).mono fun _ _ _ _ => trivial)
            (ht'.early (ht.early hs)) v u
        · exact heeds_resolve (ht'.early (ht.early hs))
            ((ho.mono ht.quiet.graph).mono ht'.quiet.graph)
    · exact heeds_resolve hs (.phi hv)

/-! ## 5. Reading -/

theorem heeds_declaration (x : VarId) : Heeds n s (declaration x) fun _ _ => True := by
  refine .look ?_
  split
  · exact .pure (.refl s) trivial
  · exact .throw (.refl s) _

theorem heeds_nameAfter (x : VarId) (o : Operand) :
    Heeds n s (nameAfter x o) fun _ _ => True := by
  refine .look ?_
  split
  · split
    · rename_i v
      refine heeds_look (Edit.looks_value v) fun y => ?_
      split
      · refine .look (.bind (heeds_declaration x) fun d t _ _ => ?_)
        refine .bind (heeds_onCounts rfl rfl rfl) fun _ t _ _ =>
          heeds_edit (A := fun _ _ => True) ?_
        exact Edit.heeds_updateValue v (fun _ _ => ⟨rfl, rfl⟩) fun _ _ _ ha => .inr ha
      · exact .pure (.refl s) trivial
    · exact .pure (.refl s) trivial
  · exact .pure (.refl s) trivial

theorem heeds_newPhi (b : BlockId) (x : VarId) :
    Heeds n s (newPhi b x) fun t v => t.graph.IsPhi v := by
  refine .bind (heeds_declaration x) fun d s₁ _ _ => ?_
  refine .bind (heeds_edit (Edit.heeds_appendPhi b x d.ty)) fun v s₂ _ hv => ?_
  refine .bind (heeds_onCounts rfl rfl rfl) fun _ s₃ h₃ _ => ?_
  refine .bind (heeds_nameAfter x _) fun _ s₄ h₄ _ => .pure (.refl s₄) ?_
  exact h₄.quiet.graph.isPhi (h₃.quiet.graph.isPhi hv)

/-- A phi gets what is read for it. -/
theorem heeds_fillWith {read : BlockId → Track Operand}
    (hread : ∀ q t, t.Early n → Heeds n t (read q) (AnswersEarly n)) (hs : s.Early n)
    (hv : s.graph.IsPhi v) : Heeds n s (fillWith read v) (AnswersEarly n) := by
  refine heeds_look (Edit.looks_value v) fun x => ?_
  split
  · exact .throw (.refl s) _
  · refine heeds_look (Edit.looks_block _) fun y => ?_
    refine .bind (heeds_onCounts rfl rfl rfl) fun _ s₁ h₁ _ => ?_
    refine .bind (.forM .refl _ fun q _ t ht => ?_) fun _ s₂ h₂ _ => ?_
    · refine .bind (hread q t (ht.early (h₁.early hs))) fun o u _ ho => ?_
      exact heeds_edit (Edit.heeds_pushIncoming v ho q)
    · refine .bind (heeds_onCounts rfl rfl rfl) fun _ s₃ h₃ _ => .look ?_
      have hv₂ := h₂.quiet.graph.isPhi (h₁.quiet.graph.isPhi hv)
      exact heeds_removeTrivialWithin _ v s₃ (h₃.early (h₂.early (h₁.early hs)))
        (h₃.quiet.graph.isPhi hv₂)

theorem heeds_readThrough {read : BlockId → Track Operand}
    (hread : ∀ q t, t.Early n → Heeds n t (read q) (AnswersEarly n)) (hs : s.Early n) (x : VarId)
    (b : BlockId) : Heeds n s (readThrough read x b) (AnswersEarly n) := by
  refine .bind (heeds_declaration x) fun d s₁ h₁ _ => ?_
  refine heeds_look (Edit.looks_block b) fun y => ?_
  split
  · split
    · exact .pure (.refl s₁) (.undef _)
    · exact hread _ s₁ (h₁.early hs)
    · refine .bind (heeds_newPhi b x) fun v s₂ h₂ hv => ?_
      refine .bind (heeds_record (.phi hv) x b) fun _ s₃ h₃ _ => ?_
      exact heeds_fillWith hread (h₃.early (h₂.early (h₁.early hs))) (h₃.quiet.graph.isPhi hv)
  · refine Leaves.seq ((heeds_newPhi b x).and (quiet_newPhi b x).ends)
      fun v s₂ ⟨⟨h₂, hv⟩, _, hle⟩ => ?_
    exact ⟨⟨h₂.quiet.await hle b x, fun h => ⟨(h₂.early h).graph, (h₂.early h).defs⟩⟩, .phi hv⟩

/-- What is read in a bounded number of blocks. -/
theorem heeds_readWithin (k : Nat) (s : Tracked) (hs : s.Early n) (x : VarId) (b : BlockId) :
    Heeds n s (readWithin k x b) (AnswersEarly n) := by
  induction k generalizing s b with
  | zero =>
    unfold readWithin
    refine .look ?_
    split
    · rename_i o ho
      exact heeds_resolve hs (hs.defs ho)
    · exact .throw (.refl s) _
  | succ k ih =>
    unfold readWithin
    refine .look ?_
    split
    · rename_i o ho
      exact heeds_resolve hs (hs.defs ho)
    · refine .bind (heeds_readThrough (fun q t ht => ih t ht q) hs x b) fun o s₁ h₁ ho => ?_
      refine .bind (heeds_resolve (h₁.early hs) ho) fun o s₂ h₂ ho => ?_
      refine .bind (heeds_record ho x b) fun _ s₃ h₃ _ => ?_
      exact .pure (.refl s₃) (ho.mono h₃.quiet.graph)

/-- **A read answers with an early operand**, and leaves early graph and tables early, whether it
    comes to an answer or not. -/
theorem early_read (hs : s.Early n) (x : VarId) (b : BlockId) :
    Heeds n s (read x b) (AnswersEarly n) := .look (heeds_readWithin _ s hs x b)

end Track

end BitFlow
