import BitFlow.Proofs.Graph.Steady
import BitFlow.Proofs.Reaching.Tables

/-!
# What reading and sealing do, step by step

Reading variables and sealing blocks are long chains of a few small steps: a phi is opened in a
block or put on the waiting list, gets an operand, is full, is retired, and a definition is
recorded. `Step` lists them with what has been checked before each. All that is said about
reading and sealing is said once about each step and follows for chains of them.

A step is told who may be touched: phis from the number `floor` on and variables in `scope`. While
a block is being sealed it is `closing`: its predecessors are final, but it does not say so yet.

Main statement: `Sane.step` -- every step keeps graph and tables consistent.
-/

namespace BitFlow

/-! ## 1. Consistent graph and tables -/

namespace Graph

/-- The predecessors of a block. -/
def preds (g : Graph) (b : BlockId) : List BlockId := ((g.shape b).map Shape.preds).getD []

/-- Whether a block exists and is sealed. -/
def isSealed (g : Graph) (b : BlockId) : Bool := ((g.shape b).map Shape.isSealed).getD false

/-- The predecessors of `b` are final: it is sealed, or it is the block being sealed. -/
def Closed (g : Graph) (closing : Option BlockId) (b : BlockId) : Prop :=
  g.isSealed b = true ∨ closing = some b

theorem preds_congr {g g' : Graph} {b : BlockId} (h : g'.shape b = g.shape b) :
    g'.preds b = g.preds b := by
  unfold preds
  rw [h]

theorem isSealed_congr {g g' : Graph} {b : BlockId} (h : g'.shape b = g.shape b) :
    g'.isSealed b = g.isSealed b := by
  unfold isSealed
  rw [h]

theorem closed_congr {g g' : Graph} {b : BlockId} (h : g'.shape b = g.shape b)
    (closing : Option BlockId) : g'.Closed closing b ↔ g.Closed closing b := by
  unfold Closed
  rw [isSealed_congr h]

theorem preds_of_block? {g : Graph} {b : BlockId} {y : Block} (h : g.block? b = some y) :
    g.preds b = y.preds := by
  unfold preds shape
  rw [h]
  rfl

theorem isSealed_of_block? {g : Graph} {b : BlockId} {y : Block} (h : g.block? b = some y) :
    g.isSealed b = y.isSealed := by
  unfold isSealed shape
  rw [h]
  rfl

theorem phi?_nextValue (g : Graph) : g.phi? g.nextValue = none := by
  unfold phi?
  rw [value?_nextValue]
  rfl

theorem Knows.mono {g g' : Graph} {o : Operand} (h : g.Knows o)
    (hs : g.values.size ≤ g'.values.size) : g'.Knows o :=
  fun w hw => Nat.lt_of_lt_of_le (h w hw) hs

end Graph

/-- **Graph and tables fit together**: the graph is steady, the table of definitions mirrors its
    inverse, a phi that waits has no operand yet, one that is being filled has operands for the
    first predecessors of its block, and every other one for all of them. -/
structure Sane (closing : Option BlockId) (s : Tracked) : Prop where
  steady : s.graph.Steady
  mirrored : s.reaching.Mirrored
  tight : s.reaching.pending.Tight
  nodup_pending : ∀ b, (s.reaching.pending.image b).Nodup
  defs_known : ∀ {q o}, s.reaching.defs.get? q = some o → s.graph.Knows o
  declared : ∀ {v p}, s.graph.phi? v = some p →
    ∃ d, variableById? s.reaching.vars p.var = some d ∧ d.ty = p.ty
  filling : ∀ {v}, v ∈ s.reaching.filling → ∃ p, s.graph.phi? v = some p ∧
    s.graph.Closed closing p.block ∧ p.sources <+: s.graph.preds p.block
  pending : ∀ {b x v}, (x, v) ∈ s.reaching.pending.image b →
    (∃ ty, s.graph.phi? v = some ⟨b, ty, x, []⟩) ∧ v ∉ s.reaching.filling ∧
      s.graph.isSealed b = false ∧ s.reaching.defs.get? (b, x) ≠ none
  complete : ∀ {v p}, s.graph.phi? v = some p → v ∉ s.reaching.filling →
    (∀ b x, (x, v) ∉ s.reaching.pending.image b) →
      p.sources = s.graph.preds p.block ∧ s.graph.Closed closing p.block

/-! ## 2. The states that steps lead to -/

namespace Tracked

/-- Two states that differ at most in names, origins and counts. -/
structure Alike (s t : Tracked) : Prop where
  graph : s.graph.Alike t.graph
  vars : t.reaching.vars = s.reaching.vars
  defs : t.reaching.defs = s.reaching.defs
  holders : t.reaching.holders = s.reaching.holders
  pending : t.reaching.pending = s.reaching.pending
  filling : t.reaching.filling = s.reaching.filling

theorem Alike.refl (s : Tracked) : s.Alike s := ⟨.refl _, rfl, rfl, rfl, rfl, rfl⟩

theorem Alike.trans {s t u : Tracked} (h : s.Alike t) (h' : t.Alike u) : s.Alike u :=
  ⟨h.graph.trans h'.graph, h'.vars.trans h.vars, h'.defs.trans h.defs,
    h'.holders.trans h.holders, h'.pending.trans h.pending, h'.filling.trans h.filling⟩

/-- The definition of `x` at the end of `b`, if one is recorded, as it stands now. -/
def reached (s : Tracked) (x : VarId) (b : BlockId) : Option Operand :=
  (s.reaching.defs.get? (b, x)).map s.graph.resolve

/-- A new phi of `x` in `b` is recorded there and is to get its operands at once. -/
def opened (s : Tracked) (b : BlockId) (x : VarId) (ty : Ty) : Tracked :=
  ⟨s.graph.withPhi b x ty,
    { s.reaching.record x b (.value s.graph.nextValue) with
      filling := s.graph.nextValue :: s.reaching.filling }⟩

/-- A new phi of `x` in `b` is recorded there and waits for its operands. -/
def awaited (s : Tracked) (b : BlockId) (x : VarId) (ty : Ty) : Tracked :=
  ⟨s.graph.withPhi b x ty,
    { s.reaching.record x b (.value s.graph.nextValue) with
      pending := s.reaching.pending.add b (x, s.graph.nextValue) }⟩

/-- The waiting phi `v` of `x` in `b` is to get its operands now. -/
def started (s : Tracked) (b : BlockId) (x : VarId) (v : ValueId) : Tracked :=
  { s with
    reaching :=
      { s.reaching with
        pending := s.reaching.pending.remove b (x, v)
        filling := v :: s.reaching.filling } }

/-- The phi `v`, which is `p`, gets an operand for the edge from `q`. -/
def pushed (s : Tracked) (v : ValueId) (p : OwnedPhi) (o : Operand) (q : BlockId) : Tracked :=
  { s with graph := s.graph.withIncoming v ⟨p.var, p.incoming⟩ o q }

/-- The phi `v` has all its operands. -/
def filled (s : Tracked) (v : ValueId) : Tracked :=
  { s with reaching := { s.reaching with filling := s.reaching.filling.filter (· ≠ v) } }

/-- The content of `x` at the end of `b` is recorded. -/
def recorded (s : Tracked) (x : VarId) (b : BlockId) (o : Operand) : Tracked :=
  { s with reaching := s.reaching.record x b o }

end Tracked

/-! ## 3. Steps -/

/-- A new phi: its name, its block and its variable. -/
structure NewPhi where
  value : ValueId
  block : BlockId
  var : VarId

/-- Why `o` is the content of `x` at the end of `b`: it is recorded there already, or `b` has no
    predecessor, or a single one at whose end it is recorded. -/
inductive Tracked.Reads (s : Tracked) (x : VarId) (b : BlockId) (o : Operand) : Prop where
  | again (h : s.reached x b = some o)
  | nowhere (h : s.reaching.defs.get? (b, x) = none) (hs : s.graph.isSealed b = true)
      (hp : s.graph.preds b = []) (d : Variable)
      (hd : variableById? s.reaching.vars x = some d) (ho : o = .undef d.ty)
  | through (h : s.reaching.defs.get? (b, x) = none) (hs : s.graph.isSealed b = true)
      (q : BlockId) (hp : s.graph.preds b = [q]) (ho : s.reached x q = some o)

/-- **One step of reading or sealing**, with what was checked before it and the phi it made. -/
inductive Step (floor : Nat) (scope : VarId → Prop) (closing : Option BlockId) :
    Tracked → Option NewPhi → Tracked → Prop where
  | opened {s : Tracked} {b : BlockId} {y : Block} {x : VarId} {d : Variable}
      (hx : scope x) (hb : s.graph.block? b = some y) (hs : y.isSealed = true)
      (hp : 2 ≤ y.preds.length) (hd : variableById? s.reaching.vars x = some d)
      (hn : s.reaching.defs.get? (b, x) = none) :
      Step floor scope closing s (some ⟨s.graph.nextValue, b, x⟩) (s.opened b x d.ty)
  | awaited {s : Tracked} {b : BlockId} {y : Block} {x : VarId} {d : Variable}
      (hx : scope x) (hb : s.graph.block? b = some y) (hs : y.isSealed = false)
      (hd : variableById? s.reaching.vars x = some d)
      (hn : s.reaching.defs.get? (b, x) = none) :
      Step floor scope closing s (some ⟨s.graph.nextValue, b, x⟩) (s.awaited b x d.ty)
  | started {s : Tracked} {b : BlockId} {x : VarId} {v : ValueId}
      (hc : closing = some b) (hv : floor ≤ v.index) (hp : (x, v) ∈ s.reaching.pending.image b) :
      Step floor scope closing s none (s.started b x v)
  | pushed {s : Tracked} {v : ValueId} {p : OwnedPhi} {o : Operand} {q : BlockId}
      (hv : floor ≤ v.index) (hf : v ∈ s.reaching.filling) (hp : s.graph.phi? v = some p)
      (hq : p.sources ++ [q] <+: s.graph.preds p.block) (ho : s.reached p.var q = some o) :
      Step floor scope closing s none (s.pushed v p o q)
  | filled {s : Tracked} {v : ValueId} {p : OwnedPhi} (hv : floor ≤ v.index)
      (hf : v ∈ s.reaching.filling) (hp : s.graph.phi? v = some p)
      (hq : p.sources = s.graph.preds p.block) :
      Step floor scope closing s none (s.filled v)
  | retired {s : Tracked} {v : ValueId} {p : OwnedPhi} {o : Operand} {g : Graph}
      (hv : floor ≤ v.index) (hp : s.graph.phi? v = some p) (hf : v ∉ s.reaching.filling)
      (hw : ∀ b x, (x, v) ∉ s.reaching.pending.image b)
      (ho : soleOperand (.value v) (.undef p.ty) p.operands = some o)
      (hg : Graph.Retired v o s.graph g) :
      Step floor scope closing s none ⟨g, s.reaching.reroute v o⟩
  | recorded {s : Tracked} {b : BlockId} {x : VarId} {o : Operand} (hx : scope x)
      (ho : s.Reads x b o) : Step floor scope closing s none (s.recorded x b o)
  | alike {s t : Tracked} (h : s.Alike t) : Step floor scope closing s none t

/-- What a phi stands for that has one operand beside itself: that operand, or the undefined one
    if it has none. -/
theorem soleOperand_eq_some {self undefined o : Operand} {ops : List Operand}
    (h : soleOperand self undefined ops = some o) :
    (∀ a ∈ ops, a = self ∨ a = o) ∧ ((o ∈ ops ∧ o ≠ self) ∨ (o = undefined ∧ ∀ a ∈ ops, a = self)) := by
  unfold soleOperand at h
  split at h
  · rename_i hnil
    cases h
    have hall : ∀ a ∈ ops, a = self := by
      intro a ha
      have := List.filter_eq_nil_iff.1 hnil a ha
      simpa using this
    exact ⟨fun a ha => .inl (hall a ha), .inr ⟨rfl, hall⟩⟩
  · rename_i o' rest hcons
    split at h
    · rename_i hrest
      cases h
      have hmem : ∀ a, a ∈ o :: rest ↔ a ∈ ops ∧ a ≠ self := by
        intro a
        rw [← hcons, List.mem_filter]
        simp
      refine ⟨fun a ha => ?_, .inl ((hmem o).1 List.mem_cons_self)⟩
      by_cases e : a = self
      · exact .inl e
      · rcases List.mem_cons.1 ((hmem a).2 ⟨ha, e⟩) with rfl | hr
        · exact .inr rfl
        · have := List.all_eq_true.1 hrest a hr
          exact .inr (by simpa using this)
    · cases h

/-! ## 4. Steps keep graph and tables consistent -/

namespace Sane

variable {closing : Option BlockId} {s t : Tracked}

theorem phi?_ne_next {v : ValueId} {p : OwnedPhi} (h : s.graph.phi? v = some p) :
    v ≠ s.graph.nextValue := by
  rintro rfl
  rw [s.graph.phi?_nextValue] at h
  cases h

/-- What is recorded somewhere is attached as it stands now. -/
theorem anchors_reached (h : Sane closing s) {x : VarId} {b : BlockId} {o : Operand}
    (ho : s.reached x b = some o) : s.graph.Anchors o := by
  obtain ⟨a, ha, rfl⟩ := Option.map_eq_some_iff.1 ho
  exact h.steady.anchors_resolve (h.defs_known ha)

theorem anchors_reads (h : Sane closing s) {x : VarId} {b : BlockId} {o : Operand}
    (ho : s.Reads x b o) : s.graph.Anchors o := by
  cases ho with
  | again ho => exact h.anchors_reached ho
  | nowhere _ _ _ d _ ho =>
    subst ho
    exact s.graph.anchors_undef d.ty
  | through _ _ q _ ho => exact h.anchors_reached ho

theorem alike (h : Sane closing s) (ha : s.Alike t) : Sane closing t := by
  have hg := ha.graph
  refine ⟨h.steady.alike hg, ?_, ?_, ?_, ?_, ?_, ?_, ?_, ?_⟩
  · intro w q
    rw [ha.holders, ha.defs]
    exact h.mirrored w q
  · rw [ha.pending]
    exact h.tight
  · rw [ha.pending]
    exact h.nodup_pending
  · intro q o hq
    rw [ha.defs] at hq
    exact (h.defs_known hq).mono (Nat.le_of_eq hg.size.symm)
  · intro v p hp
    rw [hg.phi?] at hp
    rw [ha.vars]
    exact h.declared hp
  · intro v hv
    rw [ha.filling] at hv
    obtain ⟨p, hp, hc, hq⟩ := h.filling hv
    refine ⟨p, by rw [hg.phi?, hp], ?_, ?_⟩
    · rw [Graph.closed_congr (hg.shape _)]
      exact hc
    · rw [Graph.preds_congr (hg.shape _)]
      exact hq
  · intro b x v hv
    rw [ha.pending] at hv
    rw [hg.phi?, ha.filling, Graph.isSealed_congr (hg.shape _), ha.defs]
    exact h.pending hv
  · intro v p hp hf hw
    rw [hg.phi?] at hp
    rw [ha.filling] at hf
    rw [ha.pending] at hw
    rw [Graph.closed_congr (hg.shape _), Graph.preds_congr (hg.shape _)]
    exact h.complete hp hf hw

theorem recorded (h : Sane closing s) (x : VarId) (b : BlockId) {o : Operand}
    (ho : s.graph.Knows o) : Sane closing (s.recorded x b o) := by
  refine ⟨h.steady, h.mirrored.record x b o, h.tight, h.nodup_pending, ?_, h.declared, h.filling,
    ?_, h.complete⟩
  · intro q a hq
    change (s.reaching.record x b o).defs.get? q = some a at hq
    rw [Reaching.get?_record] at hq
    split at hq
    · cases hq
      exact ho
    · exact h.defs_known hq
  · intro c z v hv
    obtain ⟨h1, h2, h3, h4⟩ := h.pending hv
    refine ⟨h1, h2, h3, ?_⟩
    show (s.reaching.record x b o).defs.get? (c, z) ≠ none
    rw [Reaching.get?_record]
    split
    · exact Option.some_ne_none _
    · exact h4

/-- A new phi that is recorded in its block, and is either filled or waits. -/
theorem withPhi (h : Sane closing s) {b : BlockId} {y : Block} (hb : s.graph.block? b = some y)
    {x : VarId} {d : Variable} (hd : variableById? s.reaching.vars x = some d)
    {filling : List ValueId} {pending : Multimap BlockId (VarId × ValueId)}
    (htight : pending.Tight) (hnodup : ∀ c, (pending.image c).Nodup)
    (hF : ∀ v, v ∈ filling → v ∈ s.reaching.filling ∨ (v = s.graph.nextValue ∧ y.isSealed = true))
    (hP : ∀ c z v, (z, v) ∈ pending.image c → (z, v) ∈ s.reaching.pending.image c ∨
      (c = b ∧ z = x ∧ v = s.graph.nextValue ∧ y.isSealed = false ∧ v ∉ filling))
    (hF' : ∀ v, v ∈ s.reaching.filling → v ∈ filling)
    (hP' : ∀ c z v, (z, v) ∈ s.reaching.pending.image c → (z, v) ∈ pending.image c)
    (hnew : s.graph.nextValue ∈ filling ∨ ∃ c z, (z, s.graph.nextValue) ∈ pending.image c) :
    Sane closing ⟨s.graph.withPhi b x d.ty,
      { s.reaching.record x b (.value s.graph.nextValue) with
        filling := filling, pending := pending }⟩ := by
  have hsh := s.graph.shape_withPhi b x d.ty
  have hphi : ∀ {v p}, s.graph.phi? v = some p →
      (s.graph.withPhi b x d.ty).phi? v = some p := by
    intro v p hp
    rw [Graph.phi?_withPhi, if_neg (phi?_ne_next hp), hp]
  have hself : (s.graph.withPhi b x d.ty).phi? s.graph.nextValue = some ⟨b, d.ty, x, []⟩ := by
    rw [Graph.phi?_withPhi, if_pos rfl]
  refine ⟨h.steady.withPhi hb x d.ty, fun w q => h.mirrored.record x b (.value _) w q, htight,
    hnodup, ?_, ?_, ?_, ?_, ?_⟩
  · intro q a hq
    change (s.reaching.record x b (.value s.graph.nextValue)).defs.get? q = some a at hq
    rw [Reaching.get?_record] at hq
    intro w hw
    show w.index < (s.graph.withPhi b x d.ty).values.size
    rw [Graph.size_withPhi]
    split at hq
    · cases hq
      cases hw
      exact Nat.lt_succ_self _
    · exact Nat.lt_succ_of_lt (h.defs_known hq w hw)
  · intro v p hp
    change (s.graph.withPhi b x d.ty).phi? v = some p at hp
    rw [Graph.phi?_withPhi] at hp
    split at hp
    · cases hp
      exact ⟨d, hd, rfl⟩
    · exact h.declared hp
  · intro v hv
    rcases hF v hv with hv | ⟨rfl, hs⟩
    · obtain ⟨p, hp, hc, hq⟩ := h.filling hv
      refine ⟨p, hphi hp, (Graph.closed_congr (hsh _) closing).2 hc, ?_⟩
      show p.sources <+: (s.graph.withPhi b x d.ty).preds p.block
      rw [Graph.preds_congr (hsh _)]
      exact hq
    · refine ⟨_, hself, (Graph.closed_congr (hsh _) closing).2 (.inl ?_), List.nil_prefix⟩
      rw [Graph.isSealed_of_block? hb, hs]
  · intro c z v hv
    show (∃ ty, (s.graph.withPhi b x d.ty).phi? v = _) ∧ v ∉ filling ∧
      (s.graph.withPhi b x d.ty).isSealed c = false ∧
      (s.reaching.record x b (.value s.graph.nextValue)).defs.get? (c, z) ≠ none
    rw [Graph.isSealed_congr (hsh _), Reaching.get?_record]
    rcases hP c z v hv with hv | ⟨rfl, rfl, rfl, hs, hf⟩
    · obtain ⟨⟨ty, hp⟩, h2, h3, h4⟩ := h.pending hv
      refine ⟨⟨ty, hphi hp⟩, fun hf => ?_, h3, ?_⟩
      · rcases hF v hf with hf | ⟨e, -⟩
        · exact h2 hf
        · exact phi?_ne_next hp e
      · split
        · exact Option.some_ne_none _
        · exact h4
    · refine ⟨⟨d.ty, hself⟩, hf, ?_, ?_⟩
      · rw [Graph.isSealed_of_block? hb, hs]
      · rw [if_pos rfl]
        exact Option.some_ne_none _
  · intro v p hp hf hw
    change (s.graph.withPhi b x d.ty).phi? v = some p at hp
    show p.sources = (s.graph.withPhi b x d.ty).preds p.block ∧
      (s.graph.withPhi b x d.ty).Closed closing p.block
    rw [Graph.preds_congr (hsh _), Graph.closed_congr (hsh _)]
    rw [Graph.phi?_withPhi] at hp
    split at hp
    · rename_i e
      subst e
      rcases hnew with hn | ⟨c, z, hn⟩
      · exact absurd hn hf
      · exact absurd hn (hw c z)
    · exact h.complete hp (fun hc => hf (hF' v hc)) fun c z hc => hw c z (hP' c z v hc)

theorem opened (h : Sane closing s) {b : BlockId} {y : Block} (hb : s.graph.block? b = some y)
    (hs : y.isSealed = true) {x : VarId} {d : Variable}
    (hd : variableById? s.reaching.vars x = some d) : Sane closing (s.opened b x d.ty) := by
  refine h.withPhi hb hd h.tight h.nodup_pending (fun v hv => ?_) (fun c z v hv => .inl hv)
    (fun v hv => List.mem_cons_of_mem _ hv) (fun c z v hv => hv) (.inl List.mem_cons_self)
  rcases List.mem_cons.1 hv with rfl | hv
  · exact .inr ⟨rfl, hs⟩
  · exact .inl hv

theorem awaited (h : Sane closing s) {b : BlockId} {y : Block} (hb : s.graph.block? b = some y)
    (hs : y.isSealed = false) {x : VarId} {d : Variable}
    (hd : variableById? s.reaching.vars x = some d) : Sane closing (s.awaited b x d.ty) := by
  have hfresh : ∀ c z, (z, s.graph.nextValue) ∉ s.reaching.pending.image c := by
    intro c z hm
    obtain ⟨⟨ty, hp⟩, -⟩ := h.pending hm
    exact phi?_ne_next hp rfl
  refine h.withPhi hb hd (h.tight.setImage _ _) (fun c => ?_) (fun v hv => .inl hv)
    (fun c z v hv => ?_) (fun v hv => hv) (fun c z v hv => ?_) (.inr ⟨b, x, ?_⟩)
  · unfold Multimap.add
    rw [Multimap.image_setImage]
    split
    · exact Ranked.nodup_insert (h.nodup_pending b) (hfresh b x)
    · exact h.nodup_pending c
  · rw [Multimap.mem_image_add] at hv
    rcases hv with ⟨e, e'⟩ | hv
    · obtain ⟨rfl, rfl⟩ := Prod.mk.inj e'
      refine .inr ⟨e.symm, rfl, rfl, hs, fun hf => ?_⟩
      obtain ⟨p, hp, -⟩ := h.filling hf
      exact phi?_ne_next hp rfl
    · exact .inl hv
  · rw [Multimap.mem_image_add]
    exact .inr hv
  · rw [Multimap.mem_image_add]
    exact .inl ⟨rfl, rfl⟩

theorem started (h : Sane closing s) {b : BlockId} {x : VarId} {v : ValueId}
    (hc : closing = some b) (hv : (x, v) ∈ s.reaching.pending.image b) :
    Sane closing (s.started b x v) := by
  obtain ⟨⟨ty, hp⟩, hf, -, -⟩ := h.pending hv
  have himage : ∀ c z w, (z, w) ∈ (s.reaching.pending.remove b (x, v)).image c ↔
      (z, w) ∈ s.reaching.pending.image c ∧ ¬ (b = c ∧ z = x ∧ w = v) := by
    intro c z w
    rw [Multimap.mem_image_remove, Prod.mk.injEq]
  refine ⟨h.steady, fun w q => h.mirrored w q, h.tight.setImage _ _, fun c => ?_, h.defs_known,
    h.declared, ?_, ?_, ?_⟩
  · show ((s.reaching.pending.remove b (x, v)).image c).Nodup
    unfold Multimap.remove
    rw [Multimap.image_setImage]
    split
    · exact (h.nodup_pending b).filter _
    · exact h.nodup_pending c
  · intro w hw
    rcases List.mem_cons.1 hw with rfl | hw
    · exact ⟨_, hp, .inr hc, List.nil_prefix⟩
    · exact h.filling hw
  · intro c z w hw
    obtain ⟨hw, hn⟩ := (himage c z w).1 hw
    obtain ⟨⟨ty', hp'⟩, h2, h3, h4⟩ := h.pending hw
    refine ⟨⟨ty', hp'⟩, fun hm => ?_, h3, h4⟩
    rcases List.mem_cons.1 hm with rfl | hm
    · rw [hp] at hp'
      cases hp'
      exact hn ⟨rfl, rfl, rfl⟩
    · exact h2 hm
  · intro w p hp' hfw hw
    have hne : w ≠ v := fun e => hfw (e ▸ List.mem_cons_self)
    refine h.complete hp' (fun hm => hfw (List.mem_cons_of_mem _ hm)) fun c z hm => ?_
    exact hw c z ((himage c z w).2 ⟨hm, fun hc => hne hc.2.2⟩)

theorem pushed (h : Sane closing s) {v : ValueId} {p : OwnedPhi} {o : Operand} {q : BlockId}
    (hf : v ∈ s.reaching.filling) (hp : s.graph.phi? v = some p)
    (hq : p.sources ++ [q] <+: s.graph.preds p.block) (ho : s.graph.Anchors o) :
    Sane closing (s.pushed v p o q) := by
  have hsh := s.graph.shape_withIncoming v ⟨p.var, p.incoming⟩ o q
  have hphi := Graph.phi?_withIncoming hp o q
  refine ⟨h.steady.withIncoming hp ho q, h.mirrored, h.tight, h.nodup_pending, ?_, ?_, ?_, ?_, ?_⟩
  · intro r a hr
    exact (h.defs_known hr).mono (Nat.le_of_eq (s.graph.size_withIncoming v _ o q).symm)
  · intro w p' hp'
    rw [show (s.pushed v p o q).graph.phi? w = _ from hphi w] at hp'
    split at hp'
    · cases hp'
      obtain ⟨d, hd, ht⟩ := h.declared hp
      exact ⟨d, hd, ht⟩
    · exact h.declared hp'
  · intro w hw
    by_cases e : w = v
    · refine ⟨p.push o q, by rw [show (s.pushed v p o q).graph.phi? w = _ from hphi w, if_pos e],
        ?_, ?_⟩
      · obtain ⟨p', hp', hc, -⟩ := h.filling hf
        rw [hp] at hp'
        cases hp'
        exact (Graph.closed_congr (hsh _) closing).2 hc
      · rw [OwnedPhi.sources_push, OwnedPhi.block_push,
          show (s.pushed v p o q).graph.preds p.block = _ from Graph.preds_congr (hsh _)]
        exact hq
    · obtain ⟨p', hp', hc, hq'⟩ := h.filling hw
      refine ⟨p', by rw [show (s.pushed v p o q).graph.phi? w = _ from hphi w, if_neg e, hp'],
        (Graph.closed_congr (hsh _) closing).2 hc, ?_⟩
      rw [show (s.pushed v p o q).graph.preds p'.block = _ from Graph.preds_congr (hsh _)]
      exact hq'
  · intro c z w hw
    obtain ⟨⟨ty, hp'⟩, h2, h3, h4⟩ := h.pending hw
    have e : w ≠ v := by
      rintro rfl
      exact h2 hf
    refine ⟨⟨ty, by rw [show (s.pushed v p o q).graph.phi? w = _ from hphi w, if_neg e, hp']⟩,
      h2, ?_, h4⟩
    rw [show (s.pushed v p o q).graph.isSealed c = _ from Graph.isSealed_congr (hsh _)]
    exact h3
  · intro w p' hp' hfw hw
    rw [show (s.pushed v p o q).graph.phi? w = _ from hphi w] at hp'
    split at hp'
    · rename_i e
      exact absurd (e ▸ hf) hfw
    · obtain ⟨h1, h2⟩ := h.complete hp' hfw hw
      refine ⟨?_, (Graph.closed_congr (hsh _) closing).2 h2⟩
      rw [show (s.pushed v p o q).graph.preds p'.block = _ from Graph.preds_congr (hsh _)]
      exact h1

theorem filled (h : Sane closing s) {v : ValueId} {p : OwnedPhi} (hf : v ∈ s.reaching.filling)
    (hp : s.graph.phi? v = some p) (hq : p.sources = s.graph.preds p.block) :
    Sane closing (s.filled v) := by
  have hmem : ∀ w, w ∈ s.reaching.filling.filter (· ≠ v) ↔ w ∈ s.reaching.filling ∧ w ≠ v := by
    intro w
    rw [List.mem_filter]
    simp
  refine ⟨h.steady, fun w q => h.mirrored w q, h.tight, h.nodup_pending, h.defs_known, h.declared,
    ?_, ?_, ?_⟩
  · intro w hw
    exact h.filling ((hmem w).1 hw).1
  · intro c z w hw
    obtain ⟨h1, h2, h3, h4⟩ := h.pending hw
    exact ⟨h1, fun hm => h2 ((hmem w).1 hm).1, h3, h4⟩
  · intro w p' hp' hfw hw
    by_cases e : w = v
    · subst e
      have hp'' : s.graph.phi? w = some p' := hp'
      rw [hp] at hp''
      cases hp''
      obtain ⟨p₀, hp₀, hc, -⟩ := h.filling hf
      rw [hp] at hp₀
      cases hp₀
      exact ⟨hq, hc⟩
    · exact h.complete hp' (fun hm => hfw ((hmem w).2 ⟨hm, e⟩)) hw

/-- The operand that replaces a superfluous phi is attached, and not the phi itself. -/
theorem anchors_sole (h : Sane closing s) {v : ValueId} {p : OwnedPhi} {o : Operand}
    (hp : s.graph.phi? v = some p)
    (ho : soleOperand (.value v) (.undef p.ty) p.operands = some o) :
    s.graph.Anchors o ∧ o ≠ .value v := by
  obtain ⟨-, ⟨hm, hne⟩ | ⟨rfl, -⟩⟩ := soleOperand_eq_some ho
  · exact ⟨h.steady.phi_anchors hp o hm, hne⟩
  · exact ⟨s.graph.anchors_undef p.ty, fun e => by cases e⟩

theorem retired (h : Sane closing s) {v : ValueId} {p : OwnedPhi} {o : Operand} {g : Graph}
    (hp : s.graph.phi? v = some p) (hf : v ∉ s.reaching.filling)
    (hw : ∀ b x, (x, v) ∉ s.reaching.pending.image b)
    (ho : soleOperand (.value v) (.undef p.ty) p.operands = some o)
    (hg : Graph.Retired v o s.graph g) : Sane closing ⟨g, s.reaching.reroute v o⟩ := by
  obtain ⟨hoa, hne⟩ := h.anchors_sole hp ho
  obtain ⟨defs, holders, hr⟩ := s.reaching.reroute_eq v o
  have hvars : (s.reaching.reroute v o).vars = s.reaching.vars := by rw [hr]
  have hpend : (s.reaching.reroute v o).pending = s.reaching.pending := by rw [hr]
  have hfill : (s.reaching.reroute v o).filling = s.reaching.filling := by rw [hr]
  have hdefs := Reaching.get?_reroute h.mirrored v o
  have hphi : ∀ {w p'}, s.graph.phi? w = some p' → w ≠ v →
      g.phi? w = some (p'.replace (.value v) o) := by
    intro w p' hp' e
    rw [hg.phi?, if_neg e, hp', Option.map_some]
  refine ⟨h.steady.retired hg (Graph.attached_of_phi? hp) hoa hne, h.mirrored.reroute hne, ?_, ?_,
    ?_, ?_, ?_, ?_, ?_⟩
  · show (s.reaching.reroute v o).pending.Tight
    rw [hpend]
    exact h.tight
  · show ∀ b, ((s.reaching.reroute v o).pending.image b).Nodup
    rw [hpend]
    exact h.nodup_pending
  · intro q a hq w hw
    show w.index < g.values.size
    rw [hg.values_size]
    change (s.reaching.reroute v o).defs.get? q = some a at hq
    rw [hdefs] at hq
    obtain ⟨a', ha', rfl⟩ := Option.map_eq_some_iff.1 hq
    unfold Operand.replace at hw
    split at hw
    · exact (hoa w hw).index_lt
    · exact h.defs_known ha' w hw
  · intro w p' hp'
    change g.phi? w = some p' at hp'
    show ∃ d, variableById? (s.reaching.reroute v o).vars p'.var = some d ∧ d.ty = p'.ty
    rw [hvars]
    rw [hg.phi?] at hp'
    split at hp'
    · cases hp'
    · obtain ⟨p₀, hp₀, rfl⟩ := Option.map_eq_some_iff.1 hp'
      obtain ⟨d, hd, ht⟩ := h.declared hp₀
      exact ⟨d, hd, ht⟩
  · intro w hw'
    change w ∈ (s.reaching.reroute v o).filling at hw'
    rw [hfill] at hw'
    obtain ⟨p', hp', hc, hq⟩ := h.filling hw'
    refine ⟨_, hphi hp' fun e => hf (e ▸ hw'), (Graph.closed_congr (hg.shape _) closing).2 hc, ?_⟩
    rw [OwnedPhi.sources_replace, OwnedPhi.block_replace,
      show (Tracked.mk g _).graph.preds p'.block = _ from Graph.preds_congr (hg.shape _)]
    exact hq
  · intro c z w hw'
    change (z, w) ∈ (s.reaching.reroute v o).pending.image c at hw'
    rw [hpend] at hw'
    obtain ⟨⟨ty, hp'⟩, h2, h3, h4⟩ := h.pending hw'
    refine ⟨⟨ty, hphi hp' fun e => hw c z (e ▸ hw')⟩, ?_, ?_, ?_⟩
    · show w ∉ (s.reaching.reroute v o).filling
      rw [hfill]
      exact h2
    · rw [show (Tracked.mk g _).graph.isSealed c = _ from Graph.isSealed_congr (hg.shape _)]
      exact h3
    · show (s.reaching.reroute v o).defs.get? (c, z) ≠ none
      rw [hdefs, Ne, Option.map_eq_none_iff]
      exact h4
  · intro w p' hp' hfw hww
    change g.phi? w = some p' at hp'
    change w ∉ (s.reaching.reroute v o).filling at hfw
    change ∀ b x, (x, w) ∉ (s.reaching.reroute v o).pending.image b at hww
    rw [hfill] at hfw
    rw [hpend] at hww
    rw [hg.phi?] at hp'
    split at hp'
    · cases hp'
    · obtain ⟨p₀, hp₀, rfl⟩ := Option.map_eq_some_iff.1 hp'
      obtain ⟨h1, h2⟩ := h.complete hp₀ hfw hww
      refine ⟨?_, (Graph.closed_congr (hg.shape _) closing).2 h2⟩
      rw [OwnedPhi.sources_replace, OwnedPhi.block_replace,
        show (Tracked.mk g _).graph.preds p₀.block = _ from Graph.preds_congr (hg.shape _)]
      exact h1

/-- **Every step keeps graph and tables consistent.** -/
theorem step {floor : Nat} {scope : VarId → Prop} {new : Option NewPhi} (h : Sane closing s)
    (hst : Step floor scope closing s new t) : Sane closing t := by
  cases hst with
  | opened _ hb hs _ hd _ => exact h.opened hb hs hd
  | awaited _ hb hs hd _ => exact h.awaited hb hs hd
  | started hc _ hp => exact h.started hc hp
  | pushed _ hf hp hq ho => exact h.pushed hf hp hq (h.anchors_reached ho)
  | filled _ hf hp hq => exact h.filled hf hp hq
  | retired _ hp hf hw ho hg => exact h.retired hp hf hw ho hg
  | recorded _ ho => exact h.recorded _ _ (h.anchors_reads ho).knows
  | alike ha => exact h.alike ha

end Sane

end BitFlow
