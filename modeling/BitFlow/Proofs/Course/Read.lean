import BitFlow.Proofs.Aftermath
import BitFlow.Proofs.Course.Basic
import BitFlow.Proofs.Graph.Revision
import BitFlow.Proofs.Move.Basic

/-!
# Reading and sealing without a bound

Following forwards, removing phis in a cascade, looking for a variable through the predecessors of a
block and filling what waits in a block are recursions that nothing bounds in advance: a forward
leads to any operand, a cascade to any user, a search around cycles of the graph. Here they stand as
courses for every depth, without the bounds of `Graph.resolve`, `Track.removeTrivial`, `Track.read`
and `Track.sealBlock`.

A bounded action that does not use up its bound goes the same way as the recursion; what is left to
show is that forwards are followed to their end. Forwards are only ever added, so it is enough that
those there are at the end are in order.

Main statements: `Graph.follow_eq_resolve`, `Course.comes_read`, `Course.comes_sealBlock` -- on
consistent graph and tables the recursions come to an end where the bounded actions do, with the
same outcome.
-/

namespace BitFlow

/-! ## 1. The recursions -/

/-- What an operand stands for: forwards are followed for as long as there is one. -/
def Graph.follow (g : Graph) (n : Nat) (o : Operand) : Option Operand :=
  match n, o with
  | 0, _ => none
  | n + 1, .value v =>
      match g.forwards.get? v with
      | some next => if next = .value v then some o else g.follow n next
      | none => some o
  | _ + 1, o => some o

namespace Course

/-- What an operand stands for. -/
def resolve (n : Nat) (o : Operand) : Course Tracked Operand := fun s =>
  (s.graph.follow n o).map fun a => (.ok a, s)

/-- Removal of a phi if it is trivial, and then of its users. -/
def removeTrivial (n : Nat) (v : ValueId) : Course Tracked Operand :=
  match n with
  | 0 => cut
  | n + 1 => do
      if (← Edit.value v).isAttached then
        match ← Track.ask (·.trivialReplacement v) with
        | none => pure (.value v)
        | some o =>
            let former ← Track.retire v o
            former.forM fun
              | .branch _ => pure ()
              | .value u => do
                  if u = v ∨ u ∈ (← get).reaching.filling then
                    pure ()
                  else
                    let x ← Edit.value u
                    if x.isPhi && x.isAttached then
                      let _ ← removeTrivial n u
            resolve n o
      else
        resolve n (.value v)

mutual

/-- What `x` holds at the end of `b`. -/
def read (n : Nat) (x : VarId) (b : BlockId) : Course Tracked Operand :=
  match n with
  | 0 => cut
  | n + 1 => do
      match (← get).reaching.definition? x b with
      | some o => resolve n o
      | none =>
          let o ← readThrough n x b
          let o ← resolve n o
          Track.onTables (·.record x b o)
          pure o
termination_by structural n

/-- What `x` holds at the end of `b`, where `b` records nothing. -/
def readThrough (n : Nat) (x : VarId) (b : BlockId) : Course Tracked Operand :=
  match n with
  | 0 => cut
  | n + 1 => do
      let decl ← Track.declaration x
      let block ← Edit.block b
      if block.isSealed then
        match block.preds with
        | [] => pure (.undef decl.ty)
        | [p] => read n x p
        | _ =>
            let v ← Track.newPhi b x
            Track.onTables (·.record x b (.value v))
            fill n x v
      else
        let v ← Track.newPhi b x
        Track.onTables fun r => { r with pending := r.pending.add b (x, v) }
        pure (.value v)
termination_by structural n

/-- The operands of the phi `v` of `x`; then its removal if it is trivial. -/
def fill (n : Nat) (x : VarId) (v : ValueId) : Course Tracked Operand :=
  match n with
  | 0 => cut
  | n + 1 => do
      match (← Edit.value v).block with
      | none => throw (.violated (.fillingDetached v))
      | some b =>
          let block ← Edit.block b
          Track.onTables fun r => { r with filling := v :: r.filling }
          block.preds.forM fun p => do
            let o ← read n x p
            Edit.pushIncoming v o p
          Track.onTables fun r => { r with filling := r.filling.filter (· ≠ v) }
          removeTrivial n v
termination_by structural n

end

/-- The operands of the phis that wait in `b`, for as long as one waits. -/
def drain (n : Nat) (b : BlockId) : Course Tracked Unit :=
  match n with
  | 0 => cut
  | n + 1 => do
      match (← get).reaching.pending.image b with
      | [] => pure ()
      | (x, v) :: _ =>
          Track.onTables fun r => { r with pending := r.pending.remove b (x, v) }
          let _ ← fill n x v
          Track.onTables Reaching.countCompleted
          drain n b

/-- The block `b` has all its predecessors now. -/
def sealBlock (n : Nat) (b : BlockId) : Course Tracked Unit := do
  if (← Edit.block b).isSealed then
    throw (.violated (.sealedTwice b))
  drain n b
  Edit.updateBlock b fun x => { x with isSealed := true }

end Course

/-! ## 2. Forwards -/

theorem Forwards.Ordered.suffix {ps qs : List (ValueId × Operand)} (h : Ordered qs)
    (hs : ps <:+ qs) : Ordered ps := by
  obtain ⟨l, rfl⟩ := hs
  induction l with
  | nil => exact h
  | cons p l ih => exact ih h.2.2

theorem Table.get?_eq_none_iff {κ υ : Type} [DecidableEq κ] {t : Table κ υ} {k : κ} :
    t.get? k = none ↔ k ∉ t.pairs.map Prod.fst := by
  unfold get?
  rw [List.lookup_eq_none_iff, List.mem_map, not_exists]
  constructor
  · rintro h q ⟨hq, rfl⟩
    simpa using h q hq
  · intro h q hq
    have hne : k ≠ q.1 := fun e => h q ⟨hq, e.symm⟩
    simpa using hne

namespace Graph

variable {g g' : Graph}

/-- The operand names no value that has a forward. -/
def Final (g : Graph) (o : Operand) : Prop := ∀ v, o = .value v → g.forwards.get? v = none

theorem follow_of_final {o : Operand} (h : g.Final o) {m : Nat} (hm : 0 < m) :
    g.follow m o = some o := by
  obtain ⟨k, rfl⟩ := Nat.exists_eq_succ_of_ne_zero (Nat.ne_zero_of_lt hm)
  cases o with
  | value v =>
    unfold follow
    rw [h v rfl]
  | lit c => rfl
  | undef ty => rfl

/-- Where a bounded search comes to the end, the search without a bound does. -/
theorem follow_of_resolveWithin (n : Nat) {o : Operand} (h : g.Final (g.resolveWithin n o))
    {m : Nat} (hm : n < m) : g.follow m o = some (g.resolveWithin n o) := by
  induction n generalizing o m with
  | zero => exact follow_of_final h hm
  | succ n ih =>
    cases o with
    | lit c => exact follow_of_final h (Nat.zero_lt_of_lt hm)
    | undef ty => exact follow_of_final h (Nat.zero_lt_of_lt hm)
    | value v =>
      obtain ⟨k, rfl⟩ := Nat.exists_eq_succ_of_ne_zero (Nat.ne_zero_of_lt hm)
      unfold follow
      unfold resolveWithin at h ⊢
      cases hv : g.forwards.get? v with
      | none => rfl
      | some next =>
        simp only [hv] at h ⊢
        by_cases e : next = .value v
        · rw [if_pos e, if_pos e]
        · rw [if_neg e] at h ⊢
          rw [if_neg e]
          exact ih h (Nat.lt_of_succ_lt_succ hm)

/-- What an operand stands for has no forward. -/
theorem final_resolve (h : Forwards.Ordered g.forwards.pairs) (o : Operand) :
    g.Final (g.resolve o) := by
  intro v hv
  rw [resolve_eq_settle h] at hv
  exact Table.get?_eq_none_iff.2 (Forwards.not_mem_of_settle h hv)

/-- **Following forwards comes to an end**, where each leads from a value that had none to an
    operand that had none. -/
theorem follow_eq_resolve (h : Forwards.Ordered g.forwards.pairs) (o : Operand) :
    ∃ n, ∀ m, n ≤ m → g.follow m o = some (g.resolve o) :=
  ⟨_, fun _ hm => follow_of_resolveWithin _ (final_resolve h o) hm⟩

/-! ## 3. What reading never undoes -/

/-- The removed values of `g` are still removed, and the forwards are the same. -/
structure Calm (g g' : Graph) : Prop where
  removed : ∀ {v}, g.Removed v → g'.Removed v
  forwards : g'.forwards = g.forwards

namespace Calm

theorem refl (g : Graph) : g.Calm g := ⟨id, rfl⟩

theorem trans {g'' : Graph} (h : g.Calm g') (h' : g'.Calm g'') : g.Calm g'' :=
  ⟨fun hv => h'.removed (h.removed hv), h'.forwards.trans h.forwards⟩

theorem of_values (hv : g'.values = g.values) (hf : g'.forwards = g.forwards) : g.Calm g' := by
  refine ⟨fun {v} hr => ?_, hf⟩
  obtain ⟨x, hx, ha⟩ := hr
  exact ⟨x, (congrArg (·[v.index]?) hv).trans hx, ha⟩

theorem addUses (h : g.Calm g') (u : User) (ops : List Operand) : g.Calm (g'.addUses u ops) := by
  rw [addUses_eq]
  exact h.trans (.of_values rfl rfl)

theorem removeUses (h : g.Calm g') (u : User) (ops : List Operand) :
    g.Calm (g'.removeUses u ops) := by
  rw [removeUses_eq]
  exact h.trans (.of_values rfl rfl)

theorem updateBlock (h : g.Calm g') (b : BlockId) (f : Block → Block) :
    g.Calm (g'.updateBlock b f) := h.trans (.of_values rfl rfl)

theorem updateValue (h : g.Calm g') (v : ValueId) {f : Value → Value}
    (hf : ∀ x, x.isAttached = false → (f x).isAttached = false) : g.Calm (g'.updateValue v f) := by
  refine h.trans ⟨fun {w} hr => ?_, rfl⟩
  obtain ⟨x, hx, ha⟩ := hr
  unfold Removed
  rw [value?_updateValue, hx]
  split
  · exact ⟨f x, rfl, hf x ha⟩
  · exact ⟨x, rfl, ha⟩

theorem pushValue (h : g.Calm g') (ty : Ty) (origin : Origin) (b : BlockId) (kind : ValueKind) :
    g.Calm (g'.pushValue ty origin b kind) := by
  refine h.trans ⟨fun {w} hr => ?_, rfl⟩
  obtain ⟨x, hx, ha⟩ := hr
  refine ⟨x, ?_, ha⟩
  rw [value?_pushValue, if_neg, hx]
  rintro rfl
  rw [value?_nextValue] at hx
  cases hx

end Calm

end Graph

namespace Edit

variable {α : Type} {g : Graph}

open BitFlow.Graph (Calm)

theorem calm_updateValue (v : ValueId) {f : Value → Value}
    (hf : ∀ x, x.isAttached = false → (f x).isAttached = false) :
    Yields g.Calm (fun _ => True) (updateValue v f) :=
  (yields_seeValue v).bind fun _ _ => .modify fun _ h => h.updateValue v hf

theorem calm_appendPhi (b : BlockId) (x : VarId) (ty : Ty) :
    Yields g.Calm (fun _ => True) (appendPhi b x ty) := by
  refine (yields_seeBlock b).bind fun _ _ => .look fun g' h => ?_
  refine .bind (.set (h.pushValue ty _ b _)) fun _ _ => ?_
  exact .bind (.modify fun _ h => h.updateBlock b _) fun _ _ => .pure trivial

theorem calm_pushIncoming (v : ValueId) (o : Operand) (q : BlockId) :
    Yields g.Calm (fun _ => True) (pushIncoming v o q) := by
  refine (yields_seeValue v).bind fun x _ => ?_
  split
  · exact .throw _
  · refine .bind (.modify fun _ h => h.updateValue v fun _ hx => hx) fun _ _ => ?_
    exact .modify fun _ h => h.addUses _ _

theorem calm_replaceUses (v : ValueId) (o : Operand) :
    Yields g.Calm (fun _ => True) (replaceUses v o) :=
  yields_replaceUses_of (fun _ h => h.trans (.of_values rfl rfl))
    (fun _ w h => h.updateValue w fun _ hx => hx) (fun _ b h => h.updateBlock b _)
    fun _ _ h => h.addUses _ _

/-- A detached value is removed. -/
theorem leaves_detach (v : ValueId) {g' : Graph} (h : g.Calm g') :
    Leaves (detach v) g' (fun _ t => g.Calm t) fun _ t => g.Calm t ∧ t.Removed v := by
  unfold detach
  rw [Leaves.bind_iff]
  refine Graph.leaves_value (fun _ => h) fun x hx => ?_
  split
  · rename_i hb
    refine ⟨h, x, hx, ?_⟩
    unfold Value.isAttached
    rw [hb]
    rfl
  · unfold updateBlock
    rw [Leaves.bind_iff, Leaves.bind_iff]
    refine Graph.leaves_block (fun _ => h) fun y _ => ?_
    rw [Leaves.modify_iff, Leaves.bind_iff, Leaves.modify_iff, Leaves.modify_iff]
    refine ⟨((h.updateBlock _ _).removeUses _ _).updateValue v fun _ _ => rfl, ?_⟩
    unfold Graph.Removed
    rw [Graph.value?_updateValue, if_pos rfl, Graph.value?_removeUses, Graph.value?_updateBlock, hx]
    exact ⟨_, rfl, rfl⟩

end Edit

namespace Tracked

variable {s t u : Tracked}

/-- Forwards lead from removed values only. -/
def Tidy (s : Tracked) : Prop := ∀ v ∈ s.graph.forwards.pairs.map Prod.fst, s.graph.Removed v

/-- **Nothing of `s` is undone in `t`**: forwards are added to those there were, and who waited
    waits. -/
structure Ahead (s t : Tracked) : Prop where
  tidy : s.Tidy → t.Tidy
  forwards : s.Tidy → s.graph.forwards.pairs <:+ t.graph.forwards.pairs
  waits : ∀ b, (s.reaching.pending.image b).Sublist (t.reaching.pending.image b)

namespace Ahead

theorem refl (s : Tracked) : s.Ahead s := ⟨id, fun _ => List.suffix_refl _, fun _ => .refl _⟩

theorem trans (h : s.Ahead t) (h' : t.Ahead u) : s.Ahead u :=
  ⟨fun hs => h'.tidy (h.tidy hs), fun hs => (h.forwards hs).trans (h'.forwards (h.tidy hs)),
    fun b => (h.waits b).trans (h'.waits b)⟩

/-- What leaves the forwards alone. -/
theorem of_calm (hg : s.graph.Calm t.graph)
    (hp : ∀ b, (s.reaching.pending.image b).Sublist (t.reaching.pending.image b)) : s.Ahead t := by
  refine ⟨fun hs v hv => ?_, fun _ => ?_, hp⟩
  · rw [hg.forwards] at hv
    exact hg.removed (hs v hv)
  · exact hg.forwards ▸ List.suffix_refl _

end Ahead

end Tracked

theorem Ranked.sublist_insert {α : Type} [Ranked α] [DecidableEq α] (a : α) (as : List α) :
    as.Sublist (Ranked.insert a as) := by
  induction as with
  | nil => exact List.nil_sublist _
  | cons b bs ih =>
    unfold Ranked.insert
    split
    · exact .refl _
    · split
      · exact List.sublist_cons_self a _
      · exact ih.cons_cons b

namespace Track

variable {α : Type} {s₀ : Tracked}

open Tracked (Ahead)

/-- An action on the graph that leaves the forwards alone. -/
theorem ahead_edit {x : Edit α} (hx : ∀ g, Yields (Graph.Calm g) (fun _ => True) x) :
    Yields s₀.Ahead (fun _ => True) (liftM x : Track α) := by
  intro s hs
  refine (Leaves.focus_iff x).2 ((hx s.graph s.graph (.refl _)).mono (fun _ g hg => ?_)
    fun _ g hg => ⟨?_, trivial⟩)
  · exact hs.trans (.of_calm hg fun _ => .refl _)
  · exact hs.trans (.of_calm hg.1 fun _ => .refl _)

theorem ahead_onTables {f : Reaching → Reaching}
    (hf : ∀ (r : Reaching) b, (r.pending.image b).Sublist ((f r).pending.image b)) :
    Yields s₀.Ahead (fun _ => True) (onTables f) :=
  .modify fun s hs => hs.trans (.of_calm (.refl _) fun b => hf s.reaching b)

/-- A change of the tables that no waiting phi is part of. -/
theorem ahead_record {f : Reaching → Reaching} (hf : ∀ r, (f r).pending = r.pending) :
    Yields s₀.Ahead (fun _ => True) (onTables f) := by
  refine ahead_onTables fun r b => ?_
  rw [hf]

theorem ahead_declaration (x : VarId) : Yields s₀.Ahead (fun _ => True) (declaration x) := by
  refine .look fun s _ => ?_
  split
  · exact .pure trivial
  · exact .throw _

theorem ahead_nameAfter (x : VarId) (o : Operand) :
    Yields s₀.Ahead (fun _ => True) (nameAfter x o) := by
  refine .look fun s _ => ?_
  split
  · split
    · refine .bind (ahead_edit fun _ => Edit.yields_seeValue _) fun y _ => ?_
      split
      · refine .look fun s _ => .bind (ahead_declaration x) fun d _ => ?_
        refine .bind (ahead_record fun _ => rfl) fun _ _ => ?_
        exact ahead_edit fun _ => Edit.calm_updateValue _ fun _ hx => hx
      · exact .pure trivial
    · exact .pure trivial
  · exact .pure trivial

theorem ahead_newPhi (b : BlockId) (x : VarId) : Yields s₀.Ahead (fun _ => True) (newPhi b x) := by
  refine .bind (ahead_declaration x) fun d _ => ?_
  refine .bind (ahead_edit fun _ => Edit.calm_appendPhi b x d.ty) fun v _ => ?_
  refine .bind (ahead_record fun _ => rfl) fun _ _ => ?_
  exact .bind (ahead_nameAfter x _) fun _ _ => .pure trivial

theorem ahead_ask (q : Graph → Except Fault α) : Yields s₀.Ahead (fun _ => True) (ask q) := by
  refine .look fun s _ => ?_
  split
  · exact .pure trivial
  · exact .throw _

/-- **A retired phi gets the newest forward**: it was attached, so it had none. -/
theorem ahead_retire {s : Tracked} {v : ValueId} {x : Value} (hv : s.graph.value? v = some x)
    (hx : x.isAttached = true) (o : Operand) : s.Ahead (after (retire v o) s) := by
  refine (after_iff (retire v o) s s.Ahead).2 ?_
  unfold retire
  -- up to the new forward only the graph has changed, and no forward
  have hcalm : ∀ g, s.graph.Calm g → s.Ahead { s with graph := g } := fun g hg =>
    .of_calm hg fun _ => .refl _
  refine Leaves.seq (P := fun _ t => ∃ g, s.graph.Calm g ∧ t = { s with graph := g })
    ((Leaves.focus_iff _).2 ?_) fun former t₁ ⟨g₁, h₁, e₁⟩ => ?_
  · exact (Edit.calm_replaceUses v o s.graph (.refl _)).mono (fun _ g hg => hcalm g hg)
      fun _ g hg => ⟨g, hg.1, rfl⟩
  subst e₁
  refine Leaves.seq (P := fun _ t => ∃ g, s.graph.Calm g ∧ g.Removed v ∧ t = { s with graph := g })
    ((Leaves.focus_iff _).2 ?_) fun _ t₂ ⟨g₂, h₂, hr, e₂⟩ => ?_
  · exact (Edit.leaves_detach v h₁).mono (fun _ g hg => hcalm g hg)
      fun _ g hg => ⟨g, hg.1, hg.2, rfl⟩
  subst e₂
  obtain ⟨defs, holders, hre⟩ := s.reaching.reroute_eq v o
  have hnew : s.Tidy → (g₂.setForward v o).forwards.pairs = (v, o) :: s.graph.forwards.pairs := by
    intro hs
    show (g₂.forwards.insert v o).pairs = _
    rw [h₂.forwards]
    refine Table.pairs_insert_of_not_mem (t := s.graph.forwards) (fun hm => ?_) o
    obtain ⟨y, hy, hy'⟩ := hs v hm
    cases hv.symm.trans hy
    rw [hx] at hy'
    cases hy'
  have hpend : (s.reaching.reroute v o).countRemoved.pending = s.reaching.pending := by
    show (s.reaching.reroute v o).pending = _
    rw [hre]
  show s.Ahead ⟨g₂.setForward v o, (s.reaching.reroute v o).countRemoved⟩
  refine ⟨fun hs w hw => ?_, fun hs => ?_, fun b => ?_⟩
  · change w ∈ (g₂.setForward v o).forwards.pairs.map Prod.fst at hw
    rw [hnew hs, List.map_cons, List.mem_cons] at hw
    show g₂.Removed w
    rcases hw with rfl | hw
    · exact hr
    · exact h₂.removed (hs w hw)
  · show _ <:+ (g₂.setForward v o).forwards.pairs
    rw [hnew hs]
    exact List.suffix_cons _ _
  · show List.Sublist _ ((s.reaching.reroute v o).countRemoved.pending.image b)
    rw [hpend]

end Track

/-! ## 4. Courses that keep pace -/

theorem after_bind_ok {σ α β : Type} {x : EStateM Fault σ α} {f : α → EStateM Fault σ β} {s t : σ}
    {a : α} (h : x.run s = .ok a t) : after (x >>= f) s = after (f a) t := by
  unfold after
  rw [EStateM.run_bind, h]

namespace Course

variable {α β : Type} {s : Tracked}

open Tracked (Ahead Tidy)
open Forwards (Ordered)

/-- **The recursion comes to what the bounded action comes to**, unless that runs out of its
    bound. -/
structure Paces (c : Nat → Course Tracked α) (x : Track α) (s : Tracked) : Prop where
  ahead : s.Ahead (after x s)
  comes : s.Tidy → Ordered (after x s).graph.forwards.pairs →
    (∀ t, x.run s ≠ .error .endless t) → Comes c s (x.run s)

namespace Paces

theorem act {x : Track α} (h : s.Ahead (after x s)) : Paces (fun _ => act x) x s :=
  ⟨h, fun _ _ _ => .act x s⟩

theorem of_yields {x : Track α} {A : α → Prop} (h : Yields s.Ahead A x) :
    Paces (fun _ => Course.act x) x s :=
  .act ((after_iff x s s.Ahead).2 ((h s (.refl s)).mono (fun _ _ ht => ht) fun _ _ ht => ht.1))

theorem pure (a : α) : Paces (fun _ => pure a) (pure a) s := ⟨.refl s, fun _ _ _ => .pure a s⟩

theorem throw (e : Fault) : Paces (fun _ => throw e : Nat → Course Tracked α) (throw e) s :=
  ⟨.refl s, fun _ _ _ => .throw e s⟩

/-- Where the bound is used up there is nothing to compare. -/
theorem endless (c : Nat → Course Tracked α) : Paces c (MonadExcept.throw Fault.endless) s :=
  ⟨.refl s, fun _ _ h => absurd rfl (h s)⟩

/-- A recursion may be unfolded. -/
theorem deeper {c : Nat → Course Tracked α} {x : Track α} (h : Paces (fun n => c (n + 1)) x s) :
    Paces c x s := ⟨h.ahead, fun htidy hord hend => (h.comes htidy hord hend).deeper⟩

theorem bind {c : Nat → Course Tracked α} {x : Track α} {d : Nat → α → Course Tracked β}
    {f : α → Track β} (h : Paces c x s)
    (hf : ∀ a t, x.run s = .ok a t → Paces (fun n => d n a) (f a) t) :
    Paces (fun n => c n >>= d n) (x >>= f) s := by
  have hrun : (x >>= f).run s = _ := EStateM.run_bind x f
  cases hx : x.run s with
  | ok a t =>
    have hd := hf a t hx
    have hst : s.Ahead t := by
      have := h.ahead
      unfold after at this
      rwa [hx] at this
    rw [hx] at hrun
    have hafter : after (x >>= f) s = after (f a) t := after_bind_ok hx
    refine ⟨by rw [hafter]; exact hst.trans hd.ahead, fun htidy hord hend => ?_⟩
    rw [hafter] at hord
    have hord' : Ordered (after x s).graph.forwards.pairs := by
      unfold after
      rw [hx]
      exact hord.suffix (hd.ahead.forwards (hst.tidy htidy))
    have hc := h.comes htidy hord' fun t' e => by
      rw [hx] at e
      cases e
    rw [hx] at hc
    rw [hc.ok_bind, hrun]
    refine hd.comes (hst.tidy htidy) hord fun t' e => hend t' ?_
    rw [hrun]
    exact e
  | error e t =>
    rw [hx] at hrun
    have hafter : after (x >>= f) s = after x s := by
      unfold after
      rw [hrun, hx]
    refine ⟨by rw [hafter]; exact h.ahead, fun htidy hord hend => ?_⟩
    rw [hafter] at hord
    have hc := h.comes htidy hord fun t' e' => hend t' (by
      rw [hx] at e'
      cases e'
      exact hrun)
    rw [hx] at hc
    rw [hrun]
    exact hc.error_bind

theorem look {d : Nat → Tracked → Course Tracked α} {f : Tracked → Track α}
    (h : Paces (fun n => d n s) (f s) s) : Paces (fun n => get >>= d n) (get >>= f) s :=
  bind ⟨.refl s, fun _ _ _ => .get s⟩ fun a t ht => by
    cases ht
    exact h

theorem ite {b : Prop} [Decidable b] {c d : Nat → Course Tracked α} {x y : Track α}
    (h : b → Paces c x s) (h' : ¬ b → Paces d y s) :
    Paces (fun n => if b then c n else d n) (if b then x else y) s := by
  split
  · exact h ‹b›
  · exact h' ‹¬ b›

/-- The bound may be taken from the state. -/
theorem measured {c : Nat → Course Tracked α} {f : Tracked → Track α} (h : Paces c (f s) s) :
    Paces c (get >>= f) s := ⟨h.ahead, h.comes⟩

theorem forM {d : Nat → α → Course Tracked PUnit} {f : α → Track PUnit} (as : List α)
    (h : ∀ a s, Paces (fun n => d n a) (f a) s) :
    Paces (fun n => as.forM (d n)) (as.forM f) s := by
  induction as generalizing s with
  | nil => exact pure _
  | cons a as ih => exact bind (h a s) fun _ _ _ => ih

theorem resolve (o : Operand) : Paces (fun n => resolve n o) (liftM (Edit.resolve o)) s := by
  refine ⟨.refl s, fun _ hord _ => ?_⟩
  obtain ⟨n, hn⟩ := Graph.follow_eq_resolve hord o
  refine ⟨n, fun m hm => ?_⟩
  have hfollow : s.graph.follow m o = some (s.graph.resolve o) := hn m hm
  dsimp only
  unfold Course.outcome Course.resolve
  rw [hfollow]
  rfl

/-- A look at a value. -/
theorem value {d : Nat → Value → Course Tracked α} {f : Value → Track α} {v : ValueId}
    (h : ∀ x, s.graph.value? v = some x → Paces (fun n => d n x) (f x) s) :
    Paces (fun n => liftM (Edit.value v) >>= d n) (liftM (Edit.value v) >>= f) s := by
  have hends : Ends (liftM (Edit.value v) : Track Value) s (fun _ => True) fun x t =>
      s.graph.value? v = some x ∧ t = s := by
    rw [Track.ends_lift]
    unfold Ends
    rw [Edit.run_value]
    cases hv : s.graph.value? v with
    | none => trivial
    | some x => exact ⟨rfl, rfl⟩
  refine bind (of_yields (Track.ahead_edit fun _ => Edit.yields_seeValue v)) fun x t ht => ?_
  obtain ⟨hx, rfl⟩ := hends.of_ok ht
  exact h x hx

/-- A question about the graph. -/
theorem ask {q : Graph → Except Fault β} {d : Nat → β → Course Tracked α} {f : β → Track α}
    (h : ∀ a, Paces (fun n => d n a) (f a) s) :
    Paces (fun n => liftM (Track.ask q) >>= d n) (Track.ask q >>= f) s := by
  have hends : Ends (Track.ask q) s (fun _ => True) fun _ t => t = s := by
    unfold Track.ask
    rw [Ends.bind_iff, Ends.get_iff]
    split
    · rfl
    · trivial
  refine bind (of_yields (Track.ahead_ask q)) fun a t ht => ?_
  rw [hends.of_ok ht]
  exact h a

end Paces

/-! ## 5. Removing phis and reading variables -/

/-- **The cascade without a bound** keeps pace with the bounded one. -/
theorem paces_removeTrivial (k : Nat) (v : ValueId) (s : Tracked) :
    Paces (fun n => removeTrivial n v) (Track.removeTrivialWithin k v) s := by
  induction k generalizing v s with
  | zero => exact .endless _
  | succ k ih =>
    refine .deeper ?_
    unfold removeTrivial Track.removeTrivialWithin
    refine .value fun x hx => .ite (fun hatt => ?_) fun _ => .resolve _
    refine .ask fun o? => ?_
    cases o? with
    | none => exact .pure _
    | some o =>
      refine .bind (.act (Track.ahead_retire hx hatt o)) fun former t₁ _ => ?_
      refine .bind (.forM former fun u s => ?_) fun _ _ _ => .resolve o
      cases u with
      | branch b => exact .pure _
      | value u =>
        refine .look (.ite (fun _ => .pure _) fun _ => .value fun y _ => ?_)
        exact .ite (fun _ => .bind (ih u s) fun _ _ _ => .pure _) fun _ => .pure _

theorem paces_fill {read : BlockId → Track Operand} {x : VarId}
    (hread : ∀ b s, Paces (fun n => Course.read n x b) (read b) s) (v : ValueId) (s : Tracked) :
    Paces (fun n => fill n x v) (Track.fillWith read v) s := by
  refine .deeper ?_
  unfold fill Track.fillWith
  refine .value fun y _ => ?_
  cases y.block with
  | none => exact .throw _
  | some b =>
    refine .bind (.of_yields (Track.ahead_edit fun _ => Edit.yields_seeBlock b)) fun z t _ => ?_
    refine .bind (.of_yields (Track.ahead_record fun _ => rfl)) fun _ t _ => ?_
    refine .bind (.forM z.preds fun q s => ?_) fun _ t _ => ?_
    · refine .bind (hread q s) fun o t _ => ?_
      exact .of_yields (Track.ahead_edit fun _ => Edit.calm_pushIncoming v o q)
    · refine .bind (.of_yields (Track.ahead_record fun _ => rfl)) fun _ t _ => ?_
      exact .measured (paces_removeTrivial _ v t)

/-- One more who waits. -/
theorem ahead_await (b : BlockId) (p : VarId × ValueId) (s : Tracked) :
    Yields s.Ahead (fun _ => True)
      (Track.onTables fun r => { r with pending := r.pending.add b p }) := by
  refine Track.ahead_onTables fun r c => ?_
  show List.Sublist _ ((r.pending.add b p).image c)
  unfold Multimap.add
  rw [Multimap.image_setImage]
  split
  · rename_i e
    subst e
    exact Ranked.sublist_insert _ _
  · exact .refl _

theorem paces_readThrough {read : BlockId → Track Operand} {x : VarId}
    (hread : ∀ b s, Paces (fun n => Course.read n x b) (read b) s) (b : BlockId) (s : Tracked) :
    Paces (fun n => readThrough n x b) (Track.readThrough read x b) s := by
  refine .deeper ?_
  unfold readThrough Track.readThrough
  refine .bind (.of_yields (Track.ahead_declaration x)) fun d t _ => ?_
  refine .bind (.of_yields (Track.ahead_edit fun _ => Edit.yields_seeBlock b)) fun y t _ => ?_
  refine .ite (fun _ => ?_) fun _ => ?_
  · rcases y.preds with - | ⟨q, - | ⟨q', qs⟩⟩
    · exact .pure _
    · exact hread q t
    · refine .bind (.of_yields (Track.ahead_newPhi b x)) fun v t _ => ?_
      refine .bind (.of_yields (Track.ahead_record fun _ => rfl)) fun _ t _ => ?_
      exact paces_fill hread v t
  · refine .bind (.of_yields (Track.ahead_newPhi b x)) fun v t _ => ?_
    exact .bind (.of_yields (ahead_await b (x, v) t)) fun _ t _ => .pure _

/-- **The search without a bound** keeps pace with the bounded one. -/
theorem paces_readWithin (k : Nat) (x : VarId) (b : BlockId) (s : Tracked) :
    Paces (fun n => read n x b) (Track.readWithin k x b) s := by
  induction k generalizing b s with
  | zero =>
    refine .deeper ?_
    unfold read Track.readWithin
    refine .look ?_
    cases s.reaching.definition? x b with
    | some o => exact .resolve o
    | none => exact .endless _
  | succ k ih =>
    refine .deeper ?_
    unfold read Track.readWithin
    refine .look ?_
    cases s.reaching.definition? x b with
    | some o => exact .resolve o
    | none =>
      refine .bind (paces_readThrough ih b s) fun o t _ => .bind (.resolve o) fun o t _ => ?_
      exact .bind (.of_yields (Track.ahead_record fun _ => rfl)) fun _ t _ => .pure _

theorem paces_read (x : VarId) (b : BlockId) (s : Tracked) :
    Paces (fun n => read n x b) (Track.read x b) s := .measured (paces_readWithin _ x b s)

end Course

/-! ## 6. Consistent graph and tables -/

theorem Sane.tidy {closing : Option BlockId} {s : Tracked} (h : Sane closing s) : s.Tidy := by
  intro v hv
  obtain ⟨hlt, hn⟩ := (h.steady.forwarding.removed v).1 hv
  obtain ⟨x, hx⟩ := Graph.exists_value? hlt
  refine ⟨x, hx, ?_⟩
  by_contra ha
  exact hn ⟨x, hx, by simpa using ha⟩

namespace Track

variable {closing : Option BlockId} {s t : Tracked} {x : VarId} {b : BlockId} {e : Fault}

theorem leaves_declaration {E : Fault → Tracked → Prop} {Q : Variable → Tracked → Prop}
    (hnone : variableById? s.reaching.vars x = none → E (.unknownVariable x) s)
    (hsome : ∀ d, variableById? s.reaching.vars x = some d → Q d s) :
    Leaves (declaration x) s E Q := by
  unfold declaration
  rw [Leaves.bind_iff, Leaves.get_iff]
  cases hd : variableById? s.reaching.vars x with
  | none => exact hnone hd
  | some d => exact hsome d hd

/-- **A read that fails has changed nothing**, unless its search has no end. -/
theorem read_error (hs : Sane closing s) (run : (read x b).run s = .error e t) :
    e = .endless ∨ t = s := by
  by_cases hboth : (∃ d, variableById? s.reaching.vars x = some d) ∧ ∃ y, s.graph.block? b = some y
  · obtain ⟨⟨d, hd⟩, hb⟩ := hboth
    refine .inl ((ends_read (R := (· = .endless)) (fun hn => ?_) hs hb (.inl rfl)).of_error run)
    cases hd.symm.trans hn
  -- else the search stops before it begins
  obtain ⟨n, hn⟩ : ∃ n, (s.graph.blocks.size + 1) * (s.graph.blocks.size + 1) = n + 1 :=
    Nat.exists_eq_succ_of_ne_zero (Nat.mul_ne_zero (Nat.succ_ne_zero _) (Nat.succ_ne_zero _))
  have hleaves : Leaves (readWithin (n + 1) x b) s (fun _ t => t = s) fun _ _ => True := by
    unfold readWithin
    rw [Leaves.bind_iff, Leaves.get_iff]
    cases s.reaching.definition? x b with
    | some o => exact trivial
    | none =>
      dsimp only
      unfold readThrough
      rw [Leaves.bind_iff, Leaves.bind_iff]
      refine leaves_declaration (fun _ => rfl) fun d hd => ?_
      rw [Leaves.bind_iff]
      refine (Leaves.focus_iff _).2 (Graph.leaves_block (fun _ => rfl) fun y hy => ?_)
      exact absurd ⟨⟨d, hd⟩, y, hy⟩ hboth
  have hrun : (readWithin (n + 1) x b).run s = .error e t := by
    rw [← hn]
    exact run
  unfold Leaves at hleaves
  rw [hrun] at hleaves
  exact .inr hleaves

end Track

namespace Course

variable {closing : Option BlockId} {s : Tracked} {b : BlockId}

/-- **Reading a variable comes to an end** where the bounded search does, with the same outcome. -/
theorem comes_read (hs : Sane closing s) (x : VarId) (b : BlockId)
    (hend : ∀ t, (Track.read x b).run s ≠ .error .endless t) :
    Comes (fun n => read n x b) s ((Track.read x b).run s) := by
  refine (paces_read x b s).comes hs.tidy ?_ hend
  unfold after
  cases hrun : (Track.read x b).run s with
  | ok o t => exact ((Track.didRead_of_run hs hrun).sane hs).steady.forwarding.ordered
  | error e t =>
    rcases Track.read_error hs hrun with rfl | rfl
    · exact absurd hrun (hend t)
    · exact hs.steady.forwarding.ordered

/-- **The waiting list comes to an end**: while one phi gets its operands none is put on it. -/
theorem comes_drain (ws : List (VarId × ValueId)) : ∀ {s t : Tracked}, Sane (some b) s →
    s.reaching.pending.image b = ws → (Track.fillPending b ws).run s = .ok () t →
    Comes (fun n => drain n b) s (.ok () t) := by
  induction ws with
  | nil =>
    intro s t _ hws run
    cases run
    refine .deeper ?_
    unfold drain
    rw [(Comes.get s).ok_bind, hws]
    exact .pure () s
  | cons p ws ih =>
    obtain ⟨x, v⟩ := p
    intro s t hs hws run
    have hxv : (x, v) ∈ s.reaching.pending.image b := hws ▸ List.mem_cons_self
    have hnodup : ((x, v) :: ws).Nodup := hws ▸ hs.nodup_pending b
    -- the run of the first phi, and the run of the others
    obtain ⟨u, hfirst, hrest⟩ : ∃ u, (Track.fillNext b x v).run s = .ok () u ∧
        (Track.fillPending b ws).run u = .ok () t := by
      rw [Track.fillPending_cons, EStateM.run_bind] at run
      cases hu : (Track.fillNext b x v).run s with
      | ok _ u => exact ⟨u, rfl, by rwa [hu] at run⟩
      | error e u =>
        rw [hu] at run
        cases run
    obtain ⟨⟨made, hst, -⟩, -, hwaits, -⟩ :=
      (Track.ends_fillNext (R := fun _ => True) hs hxv (.inl trivial)).of_ok hfirst
    have hu := hst.sane hs
    let s₁ : Tracked := { s with
      reaching := { s.reaching with pending := s.reaching.pending.remove b (x, v) } }
    obtain ⟨o, s₂, hfill, rfl⟩ : ∃ o s₂, (Track.fill x v).run s₁ = .ok o s₂ ∧
        u = { s₂ with reaching := s₂.reaching.countCompleted } := by
      refine Ends.of_ok (R := fun _ => True) (Q := fun _ u => ∃ o s₂,
        (Track.fill x v).run s₁ = .ok o s₂ ∧
          u = { s₂ with reaching := s₂.reaching.countCompleted }) ?_ hfirst
      unfold Track.fillNext
      rw [Ends.bind_iff, Track.ends_onTables, Ends.bind_iff, Ends.discard_iff]
      exact Ends.of_run fun o s₂ hrun => ⟨o, s₂, hrun, rfl⟩
    have hpace := paces_fill (paces_read x) v s₁
    have hafter : after (Track.fill x v) s₁ = s₂ := by
      unfold after
      rw [hfill]
    -- who waited behind the first one still does, and nobody else
    have hold : s₁.reaching.pending.image b = ws := by
      show (s.reaching.pending.remove b (x, v)).image b = ws
      unfold Multimap.remove
      rw [Multimap.image_setImage, if_pos rfl, hws, List.filter_cons_of_neg (by simp)]
      refine List.filter_eq_self.2 fun p hp => ?_
      have hne : p ≠ (x, v) := by
        rintro rfl
        exact (List.nodup_cons.1 hnodup).1 hp
      simpa using hne
    have hsub : ws.Sublist (s₂.reaching.pending.image b) := by
      have := hpace.ahead.waits b
      rwa [hold, show after (Track.fillWith (Track.read x) v) s₁ = s₂ from hafter] at this
    have himage : s₂.reaching.pending.image b = ws := by
      refine (hsub.eq_of_length_le ?_).symm
      refine (List.subperm_of_subset (hu.nodup_pending b) fun p hp => ?_).length_le
      obtain ⟨hm, hne⟩ := (hwaits p.1 p.2).1 hp
      rw [hws] at hm
      exact (List.mem_cons.1 hm).resolve_left hne
    have hfilled : Comes (fun n => fill n x v) s₁ (.ok o s₂) := by
      rw [← hfill]
      refine hpace.comes hs.tidy ?_ fun t' e => ?_
      · rw [show after (Track.fillWith (Track.read x) v) s₁ = s₂ from hafter]
        exact hu.steady.forwarding.ordered
      · cases hfill.symm.trans e
    have htake : Comes (fun _ => liftM (Track.onTables fun r =>
        { r with pending := r.pending.remove b (x, v) })) s (.ok () s₁) := .act _ s
    have hcount : Comes (fun _ => liftM (Track.onTables Reaching.countCompleted)) s₂
        (.ok () { s₂ with reaching := s₂.reaching.countCompleted }) := .act _ s₂
    refine .deeper ?_
    unfold drain
    rw [(Comes.get s).ok_bind, hws]
    dsimp only
    rw [htake.ok_bind, hfilled.ok_bind, hcount.ok_bind]
    exact ih hu himage hrest

/-- **Sealing a block comes to an end** where it does with bounded searches, with the same
    outcome. -/
theorem comes_sealBlock (hs : Sane none s) (b : BlockId)
    (hend : ∀ t, (Track.sealBlock b).run s ≠ .error .endless t) :
    Comes (fun n => sealBlock n b) s ((Track.sealBlock b).run s) := by
  have hlook : Ends (liftM (Edit.block b) : Track Block) s (fun _ => True) fun y t =>
      s.graph.block? b = some y ∧ t = s := by
    rw [Track.ends_lift]
    exact Edit.ends_block_or trivial fun y hy => ⟨hy, rfl⟩
  unfold sealBlock
  refine .act_bind fun y t ht => ?_
  obtain ⟨-, rfl⟩ := hlook.of_ok ht
  cases hy : y.isSealed with
  | true => exact .throw _ t
  | false =>
    have hclose := hs.closing b
    have hends := Track.ends_fillPending (R := (· = .endless)) _ t hclose (fun _ _ => Iff.rfl)
      (hs.nodup_pending b) (.inl rfl)
    -- from here on both fill what waits and set the seal
    let last : Track Unit := liftM (Edit.updateBlock b fun x => { x with isSealed := true })
    have hrun : (Track.sealBlock b).run t =
        (Track.fillPending b (t.reaching.pending.image b) >>= fun _ => last).run t := by
      have hb : (liftM (Edit.block b) : Track Block).run t = .ok y t := ht
      unfold Track.sealBlock
      rw [EStateM.run_bind, hb]
      dsimp only
      rw [hy]
      rfl
    show Comes (fun n => drain n b >>= fun _ => act last) t
      ((Track.fillPending b (t.reaching.pending.image b) >>= fun _ => last).run t)
    rw [EStateM.run_bind]
    cases hfill : (Track.fillPending b (t.reaching.pending.image b)).run t with
    | ok _ u =>
      rw [(comes_drain _ hclose rfl hfill).ok_bind]
      exact .act last u
    | error e u =>
      obtain rfl : e = .endless := hends.of_error hfill
      refine absurd ?_ (hend u)
      rw [hrun, EStateM.run_bind, hfill]

end Course

end BitFlow
