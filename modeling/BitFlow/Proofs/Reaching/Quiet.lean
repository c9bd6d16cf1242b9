import BitFlow.Proofs.Emit.Atomic
import BitFlow.Proofs.Reaching.Reading

/-!
# Reading touches no instruction

A read makes phis and removes phis. Whatever the graph, and whether the read comes to an answer or
not, every block lists the same instructions afterwards, no value has changed its type or its kind,
and all new values are phis. Of the waiting phis none is lost, and those that join them are new.

Main statement: `Track.quiet_read`.
-/

namespace BitFlow

/-! ## 1. Quiet changes of a graph -/

namespace Graph

/-- The value `v` is a phi. -/
def IsPhi (g : Graph) (v : ValueId) : Prop := ∃ x, g.value? v = some x ∧ x.isPhi = true

/-- **No instruction was touched**: values keep type and kind, new ones are phis, and every block
    lists the instructions that it listed. -/
structure Quiet (g g' : Graph) : Prop where
  size : g.values.size ≤ g'.values.size
  value : ∀ {v x}, g.value? v = some x →
    ∃ x', g'.value? v = some x' ∧ x'.ty = x.ty ∧ x'.isPhi = x.isPhi
  new : ∀ {v x}, g.value? v = none → g'.value? v = some x → x.isPhi = true
  instrs : ∀ b, (g'.block? b).map Block.instrs = (g.block? b).map Block.instrs

namespace Quiet

variable {g g' g'' : Graph}

theorem refl (g : Graph) : g.Quiet g where
  size := Nat.le_refl _
  value := fun hx => ⟨_, hx, rfl, rfl⟩
  new := fun h h' => by
    rw [h] at h'
    cases h'
  instrs := fun _ => rfl

theorem trans (h : g.Quiet g') (h' : g'.Quiet g'') : g.Quiet g'' := by
  refine ⟨Nat.le_trans h.size h'.size, fun hx => ?_, fun {v x''} hv hx => ?_, fun b =>
    (h'.instrs b).trans (h.instrs b)⟩
  · obtain ⟨x', hx', hty, hphi⟩ := h.value hx
    obtain ⟨x'', hx'', hty', hphi'⟩ := h'.value hx'
    exact ⟨x'', hx'', hty'.trans hty, hphi'.trans hphi⟩
  · cases hv' : g'.value? v with
    | none => exact h'.new hv' hx
    | some x' =>
      obtain ⟨y, hy, -, hphi⟩ := h'.value hv'
      rw [hx] at hy
      cases hy
      exact hphi.trans (h.new hv hv')

instance : Trans Quiet Quiet Quiet := ⟨trans⟩

theorem isPhi (h : g.Quiet g') {v : ValueId} (hv : g.IsPhi v) : g'.IsPhi v := by
  obtain ⟨x, hx, hphi⟩ := hv
  obtain ⟨x', hx', -, hphi'⟩ := h.value hx
  exact ⟨x', hx', hphi'.trans hphi⟩

/-- Only values and blocks count. -/
theorem reuse (hv : g'.values = g.values) (hb : g'.blocks = g.blocks) : g.Quiet g' := by
  have hvalue : ∀ v, g'.value? v = g.value? v := fun v => congrArg (·[v.index]?) hv
  refine ⟨Nat.le_of_eq (congrArg Array.size hv).symm, fun hx => ⟨_, (hvalue _).trans hx, rfl, rfl⟩,
    fun h h' => ?_, fun b => ?_⟩
  · rw [hvalue, h] at h'
    cases h'
  · unfold block?
    rw [hb]

/-- Names and origins do not count. -/
theorem of_alike (h : g.Alike g') : g.Quiet g' := by
  obtain ⟨G, hG, hsame⟩ := h.value
  refine ⟨Nat.le_of_eq h.size.symm, fun {v x} hx => ?_, fun {v x} hv hx => ?_, fun b => ?_⟩
  · obtain ⟨-, hty, -, hk⟩ := hsame v x
    refine ⟨G v x, by rw [hG, hx]; rfl, hty, ?_⟩
    unfold Value.isPhi
    rw [hk]
  · rw [hG, hv] at hx
    cases hx
  · unfold block?
    rw [h.blocks]

theorem addUses (g : Graph) (u : User) (ops : List Operand) : g.Quiet (g.addUses u ops) := by
  rw [addUses_eq]
  exact reuse rfl rfl

theorem removeUses (g : Graph) (u : User) (ops : List Operand) : g.Quiet (g.removeUses u ops) := by
  rw [removeUses_eq]
  exact reuse rfl rfl

/-- A value changes, but neither its type nor its kind. -/
theorem updateValue {v : ValueId} {f : Value → Value}
    (hf : ∀ x, g.value? v = some x → (f x).ty = x.ty ∧ (f x).isPhi = x.isPhi) :
    g.Quiet (g.updateValue v f) := by
  refine ⟨by simp [Graph.updateValue], fun {w x} hx => ?_, fun {w x} hw hx => ?_, fun _ => rfl⟩
  · rw [value?_updateValue]
    split
    · rename_i e
      subst e
      exact ⟨f x, by rw [hx]; rfl, hf x hx⟩
    · exact ⟨x, hx, rfl, rfl⟩
  · rw [value?_updateValue, hw] at hx
    split at hx <;> cases hx

/-- A block changes, but not its instructions. -/
theorem updateBlock (g : Graph) (b : BlockId) {f : Block → Block}
    (hf : ∀ y, (f y).instrs = y.instrs) : g.Quiet (g.updateBlock b f) := by
  refine ⟨Nat.le_refl _, fun hx => ⟨_, hx, rfl, rfl⟩, fun h h' => ?_, fun c => ?_⟩
  · rw [value?_updateBlock, h] at h'
    cases h'
  · rw [block?_updateBlock]
    split
    · rw [Option.map_map]
      exact congrArg (fun k => Option.map k (g.block? c)) (funext hf)
    · rfl

theorem pushPhi (g : Graph) (ty : Ty) (origin : Origin) (b : BlockId) (p : Phi) :
    g.Quiet (g.pushValue ty origin b (.phi p)) := by
  refine ⟨by simp [Graph.pushValue], fun {v x} hx => ?_, fun {v x} hv hx => ?_, fun _ => rfl⟩
  · refine ⟨x, ?_, rfl, rfl⟩
    rw [value?_pushValue, if_neg]
    · exact hx
    · rintro rfl
      rw [value?_nextValue] at hx
      cases hx
  · rw [value?_pushValue] at hx
    split at hx
    · cases hx
      rfl
    · rw [hv] at hx
      cases hx

end Quiet

end Graph

/-! ## 2. Operations on the graph -/

namespace Edit

variable {g : Graph}

/-- The computation touches no instruction, and its answers satisfy `A`. -/
abbrev Hushed {α : Type} (g : Graph) (x : Edit α) (A : α → Prop) : Prop :=
  Advances Graph.Quiet (fun _ => A) x g

theorem ends_seeValue (v : ValueId) :
    Ends (value v) g (fun _ => True) fun x _ => g.value? v = some x := by
  unfold Ends
  rw [run_value]
  cases g.value? v <;> trivial

theorem quiet_updateValue (v : ValueId) {f : Value → Value}
    (hf : ∀ x, g.value? v = some x → (f x).ty = x.ty ∧ (f x).isPhi = x.isPhi) :
    Hushed g (updateValue v f) fun _ => True :=
  .looked (.refl g) (looks_value v) (ends_seeValue v) fun _ _ => ⟨.updateValue hf, trivial⟩

theorem quiet_updateBlock (b : BlockId) {f : Block → Block} (hf : ∀ y, (f y).instrs = y.instrs) :
    Hushed g (updateBlock b f) fun _ => True :=
  .looked (.refl g) (looks_block b) (Ends.of_run fun _ _ _ => trivial) fun _ _ =>
    ⟨.updateBlock g b hf, trivial⟩

theorem quiet_addUses (u : User) (ops : List Operand) :
    Hushed g (modify (·.addUses u ops) : Edit PUnit) fun _ => True := ⟨.addUses g u ops, trivial⟩

theorem quiet_appendPhi (b : BlockId) (x : VarId) (ty : Ty) :
    Hushed g (appendPhi b x ty) fun v => v = g.nextValue :=
  .looked (.refl g) (looks_block b) (Ends.of_run fun _ _ _ => trivial) fun _ _ =>
    ⟨(Graph.Quiet.pushPhi g ty _ b _).trans (.updateBlock _ b fun _ => rfl), rfl⟩

theorem quiet_pushIncoming (v : ValueId) (o : Operand) (q : BlockId) :
    Hushed g (pushIncoming v o q) fun _ => True := by
  refine .looked (.refl g) (looks_value v) (ends_seeValue v) fun x hx => ?_
  split
  · exact .throw (.refl g) _
  · rename_i p hk
    refine .bind (A := fun _ _ => True) ⟨.updateValue fun y hy => ⟨rfl, ?_⟩, trivial⟩
      fun _ _ _ _ => quiet_addUses _ _
    cases hx.symm.trans hy
    unfold Value.isPhi
    rw [hk]

theorem quiet_replaceUses (v : ValueId) (o : Operand) :
    Hushed g (replaceUses v o) fun _ => True := by
  refine .look (.bind (A := fun _ _ => True) ⟨.reuse rfl rfl, trivial⟩ fun _ g₁ _ _ => ?_)
  refine .bind (.forM .refl _ fun u _ g₂ _ => ?_) fun _ g₃ _ _ => .pure (.refl g₃) trivial
  cases u with
  | value w =>
    refine .bind (quiet_updateValue w fun x _ => ⟨rfl, Value.isPhi_replace _ _ x⟩)
      fun _ _ _ _ => quiet_addUses _ _
  | branch b =>
    exact .bind (quiet_updateBlock b fun _ => rfl) fun _ _ _ _ => quiet_addUses _ _

/-- A phi is no instruction, so its removal from the lists touches none. -/
theorem quiet_detach {v : ValueId} (hv : g.IsPhi v) : Hushed g (detach v) fun _ => True := by
  refine .looked (.refl g) (looks_value v) (ends_seeValue v) fun x hx => ?_
  obtain ⟨x', hx', hphi⟩ := hv
  cases hx.symm.trans hx'
  split
  · exact .pure (.refl g) trivial
  · refine .bind (quiet_updateBlock _ fun y => by rw [if_pos hphi]) fun _ g₁ _ _ => ?_
    refine .bind (A := fun _ _ => True) ⟨.removeUses g₁ _ _, trivial⟩ fun _ g₂ _ _ => ?_
    exact ⟨.updateValue fun _ _ => ⟨rfl, rfl⟩, trivial⟩

end Edit

/-! ## 3. Quiet changes of graph and tables -/

/-- **No instruction was touched, and no waiting phi was lost**: those that joined are new. -/
structure Tracked.Quiet (s t : Tracked) : Prop where
  graph : s.graph.Quiet t.graph
  vars : t.reaching.vars = s.reaching.vars
  kept : ∀ {b q}, q ∈ s.reaching.pending.image b → q ∈ t.reaching.pending.image b
  joined : ∀ {b q}, q ∈ t.reaching.pending.image b →
    q ∈ s.reaching.pending.image b ∨ s.graph.values.size ≤ q.2.index

namespace Tracked.Quiet

variable {s t u : Tracked}

theorem refl (s : Tracked) : s.Quiet s := ⟨.refl _, rfl, id, .inl⟩

theorem trans (h : s.Quiet t) (h' : t.Quiet u) : s.Quiet u :=
  ⟨h.graph.trans h'.graph, h'.vars.trans h.vars, fun hq => h'.kept (h.kept hq), fun hq =>
    (h'.joined hq).elim h.joined fun hle => .inr (Nat.le_trans h.graph.size hle)⟩

instance : Trans Tracked.Quiet Tracked.Quiet Tracked.Quiet := ⟨trans⟩

/-- The waiting phis are the same. -/
theorem of_graph (h : s.graph.Quiet t.graph) (hvars : t.reaching.vars = s.reaching.vars)
    (hpending : t.reaching.pending = s.reaching.pending) : s.Quiet t :=
  ⟨h, hvars, fun hq => hpending ▸ hq, fun hq => .inl (hpending ▸ hq)⟩

/-- A new value joins those that wait. -/
theorem await (h : s.Quiet t) {v : ValueId} (hv : s.graph.values.size ≤ v.index) (b : BlockId)
    (x : VarId) :
    s.Quiet ⟨t.graph, { t.reaching with pending := t.reaching.pending.add b (x, v) }⟩ := by
  refine ⟨h.graph, h.vars, fun hq => (Multimap.mem_image_add _ _ _ _ _).2 (.inr (h.kept hq)),
    fun hq => ?_⟩
  rcases (Multimap.mem_image_add _ _ _ _ _).1 hq with ⟨-, rfl⟩ | hq
  · exact .inr hv
  · exact h.joined hq

end Tracked.Quiet

namespace Track

variable {α : Type} {s : Tracked}

/-- The computation touches no instruction, and its answers satisfy `A`. -/
abbrev Hushed (s : Tracked) (x : Track α) (A : α → Prop) : Prop :=
  Advances Tracked.Quiet (fun _ => A) x s

theorem quiet_edit {x : Edit α} {A : α → Prop} (hx : Edit.Hushed s.graph x A) :
    Hushed s (liftM x : Track α) A :=
  Advances.focus hx (fun _ hg => .of_graph hg rfl rfl) fun _ _ _ ha => ha

/-- A look at the graph, and what follows it. -/
theorem quiet_look {β : Type} {x : Edit α} (hx : Looks x) {f : α → Track β} {A : β → Prop}
    (hf : ∀ a, Hushed s (f a) A) : Hushed s ((liftM x : Track α) >>= f) A :=
  .looked (.refl s) (.focus (fun _ => rfl) hx) (A := fun _ => True)
    (Ends.of_run fun _ _ _ => trivial) fun a _ => hf a

theorem quiet_onTables {f : Reaching → Reaching} (hvars : (f s.reaching).vars = s.reaching.vars)
    (hpending : (f s.reaching).pending = s.reaching.pending) :
    Hushed s (onTables f) fun _ => True := ⟨.of_graph (.refl _) hvars hpending, trivial⟩

theorem quiet_declaration (x : VarId) : Hushed s (declaration x) fun _ => True := by
  refine .look ?_
  split
  · exact .pure (.refl s) trivial
  · exact .throw (.refl s) _

theorem quiet_resolve (o : Operand) :
    Hushed s (liftM (Edit.resolve o) : Track Operand) fun _ => True :=
  quiet_edit ⟨.refl _, trivial⟩

/-! ## 4. Removal -/

theorem looks_ask (q : Graph → Except Fault α) : Looks (ask q) := by
  refine .look fun s => ?_
  split
  · exact .pure _
  · exact .throw _

theorem ends_asked (q : Graph → Except Fault α) :
    Ends (ask q) s (fun _ => True) fun a _ => q s.graph = .ok a := by
  unfold ask
  rw [Ends.bind_iff, Ends.get_iff]
  cases q s.graph with
  | ok a => exact rfl
  | error e => trivial

theorem quiet_retire {v : ValueId} (hv : s.graph.IsPhi v) (o : Operand) :
    Hushed s (retire v o) fun _ => True := by
  refine .bind (quiet_edit (Edit.quiet_replaceUses v o)) fun former s₁ h₁ _ => ?_
  refine .bind (quiet_edit (Edit.quiet_detach (h₁.graph.isPhi hv))) fun _ s₂ _ _ => ?_
  refine .bind (quiet_edit (A := fun _ => True) ⟨.reuse rfl rfl, trivial⟩) fun _ s₃ _ _ => ?_
  obtain ⟨_, _, hroute⟩ := s₃.reaching.reroute_eq v o
  refine .bind (quiet_onTables ?_ ?_) fun _ s₄ _ _ => .pure (.refl s₄) trivial
  · show (s₃.reaching.reroute v o).vars = _
    rw [hroute]
  · show (s₃.reaching.reroute v o).pending = _
    rw [hroute]

theorem quiet_recheck {remove : ValueId → Track Operand}
    (hremove : ∀ u t, Hushed t (remove u) fun _ => True) (v : ValueId) (u : User) :
    Hushed s (recheck remove v u) fun _ => True := by
  cases u with
  | branch b => exact .pure (.refl s) trivial
  | value w =>
    refine .look ?_
    split
    · exact .pure (.refl s) trivial
    · refine quiet_look (Edit.looks_value w) fun x => ?_
      split
      · exact (hremove w s).discard
      · exact .pure (.refl s) trivial

theorem quiet_removeTrivialWithin (n : Nat) (v : ValueId) (s : Tracked) :
    Hushed s (removeTrivialWithin n v) fun _ => True := by
  induction n generalizing v s with
  | zero => exact .throw (.refl s) _
  | succ n ih =>
    refine quiet_look (Edit.looks_value v) fun x => ?_
    split
    · refine .looked (.refl s) (looks_ask _) (ends_asked _) fun o? ho => ?_
      cases o? with
      | none => exact .pure (.refl s) trivial
      | some o =>
        obtain ⟨x, hx, hphi, -⟩ := exists_of_trivialReplacement ho
        refine .bind (quiet_retire ⟨x, hx, hphi⟩ o) fun former t _ _ => ?_
        exact .bind (.forM .refl _ fun u _ t _ => quiet_recheck ih v u)
          fun _ _ _ _ => quiet_resolve o
    · exact quiet_resolve _

/-! ## 5. Reading -/

theorem quiet_nameAfter (x : VarId) (o : Operand) : Hushed s (nameAfter x o) fun _ => True := by
  refine .look ?_
  split
  · split
    · rename_i v
      refine quiet_look (Edit.looks_value v) fun y => ?_
      split
      · refine .look (.bind (quiet_declaration x) fun d t _ _ => ?_)
        refine .bind (quiet_onTables rfl rfl) fun _ t _ _ => quiet_edit ?_
        exact Edit.quiet_updateValue v fun _ _ => ⟨rfl, rfl⟩
      · exact .pure (.refl s) trivial
    · exact .pure (.refl s) trivial
  · exact .pure (.refl s) trivial

theorem quiet_newPhi (b : BlockId) (x : VarId) :
    Hushed s (newPhi b x) fun v => s.graph.values.size ≤ v.index := by
  refine .bind (quiet_declaration x) fun d s₁ h₁ _ => ?_
  refine .bind (quiet_edit (Edit.quiet_appendPhi b x d.ty)) fun v s₂ _ hv => ?_
  refine .bind (quiet_onTables rfl rfl) fun _ s₃ _ _ => ?_
  refine .bind (quiet_nameAfter x _) fun _ s₄ _ _ => .pure (.refl s₄) ?_
  rw [hv]
  exact h₁.graph.size

theorem quiet_fillWith {read : BlockId → Track Operand}
    (hread : ∀ q t, Hushed t (read q) fun _ => True) (v : ValueId) :
    Hushed s (fillWith read v) fun _ => True := by
  refine quiet_look (Edit.looks_value v) fun x => ?_
  split
  · exact .throw (.refl s) _
  · refine quiet_look (Edit.looks_block _) fun y => ?_
    refine .bind (quiet_onTables rfl rfl) fun _ t _ _ => ?_
    refine .bind (.forM .refl _ fun q _ t _ => ?_) fun _ t _ _ => ?_
    · exact .bind (hread q t) fun o t _ _ => quiet_edit (Edit.quiet_pushIncoming v o q)
    · exact .bind (quiet_onTables rfl rfl) fun _ t _ _ => .look (quiet_removeTrivialWithin _ v t)

/-- The new phi joins those that wait. -/
theorem quiet_await (b : BlockId) (x : VarId) :
    Hushed s (newPhi b x >>= fun v =>
      onTables (fun r => { r with pending := r.pending.add b (x, v) }) >>= fun _ =>
        (pure (.value v) : Track Operand)) fun _ => True :=
  Leaves.seq (quiet_newPhi b x) fun _ _ ⟨h₂, hv⟩ => ⟨h₂.await hv b x, trivial⟩

theorem quiet_readThrough {read : BlockId → Track Operand}
    (hread : ∀ q t, Hushed t (read q) fun _ => True) (x : VarId) (b : BlockId) :
    Hushed s (readThrough read x b) fun _ => True := by
  refine .bind (quiet_declaration x) fun d s₁ _ _ => ?_
  refine quiet_look (Edit.looks_block b) fun y => ?_
  split
  · split
    · exact .pure (.refl s₁) trivial
    · exact hread _ s₁
    · refine .bind (quiet_newPhi b x) fun v s₂ _ _ => ?_
      refine .bind (quiet_onTables rfl rfl) fun _ _ _ _ => ?_
      exact quiet_fillWith hread v
  · exact quiet_await b x

theorem quiet_readWithin (n : Nat) (x : VarId) (b : BlockId) (s : Tracked) :
    Hushed s (readWithin n x b) fun _ => True := by
  induction n generalizing b s with
  | zero =>
    unfold readWithin
    refine .look ?_
    split
    · exact quiet_resolve _
    · exact .throw (.refl s) _
  | succ n ih =>
    unfold readWithin
    refine .look ?_
    split
    · exact quiet_resolve _
    · refine .bind (quiet_readThrough (fun q t => ih q t) x b) fun o s₁ _ _ => ?_
      refine .bind (quiet_resolve o) fun o s₂ _ _ => ?_
      exact .bind (quiet_onTables rfl rfl) fun _ t _ _ => .pure (.refl t) trivial

/-- **A read touches no instruction**, whether it comes to an answer or not. -/
theorem quiet_read (x : VarId) (b : BlockId) (s : Tracked) :
    Hushed s (read x b) fun _ => True := .look (quiet_readWithin _ x b s)

end Track

end BitFlow
