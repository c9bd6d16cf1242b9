import BitFlow.Proofs.Graph.Retire
import Mathlib.Tactic.ByContra

/-!
# What removed values stand for

A forward leads from a removed value to what replaced it. When a forward is made, its target has
none itself, so the table of forwards, newest first, only ever leads from older entries to newer
ones and following it comes to an end.

Main statements: `Graph.resolve_eq_settle` -- an operand is resolved by replacing the removed
values one after the other in the order of their removal; `Graph.Retired.resolve` -- one more
removal is one more replacement.
-/

namespace BitFlow

/-! ## 1. Forwards in order -/

namespace Forwards

/-- Forwards, newest first: each leads from a value that had none to an operand that had none. -/
def Ordered : List (ValueId × Operand) → Prop
  | [] => True
  | (v, o) :: ps =>
      v ∉ ps.map Prod.fst ∧ (∀ w, o = .value w → w ≠ v ∧ w ∉ ps.map Prod.fst) ∧ Ordered ps

/-- The operand with all removed values replaced, the one removed first in the first place. -/
def settle (ps : List (ValueId × Operand)) (o : Operand) : Operand :=
  ps.foldr (fun p a => Operand.replace (.value p.1) p.2 a) o

@[simp] theorem settle_nil (o : Operand) : settle [] o = o := rfl

@[simp] theorem settle_cons (v : ValueId) (t : Operand) (ps : List (ValueId × Operand))
    (o : Operand) : settle ((v, t) :: ps) o = Operand.replace (.value v) t (settle ps o) := rfl

/-- An operand without a forward is left alone. -/
theorem settle_of_not_mem {ps : List (ValueId × Operand)} {o : Operand}
    (h : ∀ w, o = .value w → w ∉ ps.map Prod.fst) : settle ps o = o := by
  induction ps with
  | nil => rfl
  | cons p ps ih =>
    obtain ⟨v, t⟩ := p
    have h' : ∀ w, o = .value w → w ≠ v ∧ w ∉ ps.map Prod.fst := by
      intro w hw
      have := h w hw
      rw [List.map_cons, List.mem_cons, not_or] at this
      exact this
    rw [settle_cons, ih fun w hw => (h' w hw).2]
    exact Operand.replace_of_ne fun e => (h' v e).1 rfl

/-- What a settled operand names has no forward. -/
theorem not_mem_of_settle {ps : List (ValueId × Operand)} (h : Ordered ps) {o : Operand}
    {w : ValueId} (hw : settle ps o = .value w) : w ∉ ps.map Prod.fst := by
  induction ps generalizing w with
  | nil => exact List.not_mem_nil
  | cons p ps ih =>
    obtain ⟨v, t⟩ := p
    obtain ⟨hv, ht, hps⟩ := h
    rw [settle_cons] at hw
    rw [List.map_cons, List.mem_cons, not_or]
    unfold Operand.replace at hw
    split at hw
    · exact ht w hw
    · rename_i hne
      refine ⟨?_, ih hps hw⟩
      rintro rfl
      exact hne hw

/-- A value settles as the target of its forward does. -/
theorem settle_of_lookup {ps : List (ValueId × Operand)} (h : Ordered ps) {v : ValueId}
    {t : Operand} (hv : ps.lookup v = some t) : settle ps (.value v) = settle ps t := by
  induction ps with
  | nil => cases hv
  | cons p ps ih =>
    obtain ⟨w, u⟩ := p
    obtain ⟨hw, hu, hps⟩ := h
    rw [List.lookup_cons] at hv
    by_cases e : v = w
    · subst e
      rw [beq_self_eq_true] at hv
      cases hv
      -- neither `v` nor its target has an older forward
      have h1 : settle ps (.value v) = .value v := by
        refine settle_of_not_mem fun a ha => ?_
        cases ha
        exact hw
      have h2 : settle ps t = t := settle_of_not_mem fun a ha => (hu a ha).2
      rw [settle_cons, settle_cons, h1, h2]
      unfold Operand.replace
      rw [if_pos rfl, if_neg fun e => (hu v e).1 rfl]
    · have hb : (v == w) = false := by simpa using e
      rw [hb] at hv
      rw [settle_cons, settle_cons, ih hps hv]

theorem mem_keys_of_lookup {ps : List (ValueId × Operand)} {v : ValueId} {t : Operand}
    (hv : ps.lookup v = some t) : v ∈ ps.map Prod.fst := by
  obtain ⟨l₁, l₂, rfl, -⟩ := List.lookup_eq_some_iff.1 hv
  simp

/-- An entry leads to an operand that has no forward among the entries from it on. -/
theorem Ordered.target {l₁ l₂ : List (ValueId × Operand)} {v : ValueId} {t : Operand}
    (h : Ordered (l₁ ++ (v, t) :: l₂)) :
    t ≠ .value v ∧ ∀ w, t = .value w → w ∉ ((v, t) :: l₂).map Prod.fst := by
  induction l₁ with
  | nil =>
    obtain ⟨-, ht, -⟩ := h
    refine ⟨fun e => (ht v e).1 rfl, fun w hw => ?_⟩
    rw [List.map_cons, List.mem_cons, not_or]
    exact ht w hw
  | cons p l₁ ih => exact ih h.2.2

end Forwards

theorem Table.pairs_insert_of_not_mem {κ υ : Type} [DecidableEq κ] {t : Table κ υ}
    {k : κ} (h : k ∉ t.pairs.map Prod.fst) (v : υ) : (t.insert k v).pairs = (k, v) :: t.pairs := by
  show (k, v) :: t.pairs.filter (fun p => p.1 ≠ k) = _
  rw [List.filter_eq_self.2]
  intro p hp
  have : p.1 ≠ k := fun e => h (List.mem_map.2 ⟨p, hp, e⟩)
  simpa using this

namespace Graph

open Forwards

/-! ## 2. Resolving -/

/-- Following forwards settles an operand, if only entries of `newer` can still be met and there
    are more steps than those. -/
theorem resolveWithin_eq_settle {g : Graph} (h : Ordered g.forwards.pairs) (n : Nat) :
    ∀ (newer older : List (ValueId × Operand)) (o : Operand),
      g.forwards.pairs = newer ++ older → (∀ w, o = .value w → w ∉ older.map Prod.fst) →
      newer.length < n → g.resolveWithin n o = settle g.forwards.pairs o := by
  induction n with
  | zero => intro _ _ _ _ _ hn; exact absurd hn (Nat.not_lt_zero _)
  | succ n ih =>
    intro newer older o hsplit hold hn
    cases o with
    | lit c => exact (settle_of_not_mem fun w hw => by cases hw).symm
    | undef ty => exact (settle_of_not_mem fun w hw => by cases hw).symm
    | value v =>
      unfold resolveWithin
      cases hv : g.forwards.get? v with
      | none =>
        refine (settle_of_not_mem fun w hw hm => ?_).symm
        cases hw
        have := List.lookup_eq_none_iff.1 hv
        obtain ⟨p, hp, e⟩ := List.mem_map.1 hm
        simpa [e] using this p hp
      | some t =>
        obtain ⟨l₁, l₂, hl, -⟩ := List.lookup_eq_some_iff.1 hv
        obtain ⟨hne, ht⟩ := Ordered.target (hl ▸ h)
        show (if t = .value v then _ else _) = _
        rw [if_neg hne, settle_of_lookup h hv]
        -- the entry of `v` is one of `newer`, and what it leads to is met before it
        have hlen : l₁.length < newer.length := by
          by_contra hle
          have hmem : (v, t) ∈ older := by
            have hdrop : older = (l₁ ++ (v, t) :: l₂).drop newer.length := by
              rw [← hl, hsplit, List.drop_left]
            rw [hdrop, List.drop_append_of_le_length (Nat.le_of_not_lt hle)]
            simp
          exact hold v rfl (List.mem_map.2 ⟨_, hmem, rfl⟩)
        exact ih l₁ _ t hl ht (by omega)

/-- **An operand is resolved by replacing the removed values one after the other.** -/
theorem resolve_eq_settle {g : Graph} (h : Ordered g.forwards.pairs) (o : Operand) :
    g.resolve o = settle g.forwards.pairs o :=
  resolveWithin_eq_settle h _ g.forwards.pairs [] o (List.append_nil _).symm
    (fun _ _ => List.not_mem_nil) (Nat.lt_succ_self _)

/-- **What holds of an operand, and of what a forward leads to if it holds of the value it leads
    from, holds of what the operand stands for.** -/
theorem of_resolve {g : Graph} {G : Operand → Prop}
    (hf : ∀ {v next}, G (.value v) → g.forwards.get? v = some next → G next) {o : Operand}
    (ho : G o) : G (g.resolve o) := by
  unfold resolve
  generalize g.forwards.size + 1 = n
  induction n generalizing o with
  | zero => cases o <;> exact ho
  | succ n ih =>
    cases o with
    | lit c => exact ho
    | undef ty => exact ho
    | value v =>
      unfold resolveWithin
      split
      · rename_i next hnext
        split
        · exact ho
        · exact ih (hf ho hnext)
      · exact ho

/-! ## 3. Removed values have forwards -/

/-- A value that exists and belongs to a block. -/
def Attached (g : Graph) (v : ValueId) : Prop := ∃ x, g.value? v = some x ∧ x.isAttached = true

/-- A value that exists and belongs to no block. -/
def Removed (g : Graph) (v : ValueId) : Prop := ∃ x, g.value? v = some x ∧ x.isAttached = false

/-- The removed values are exactly those with a forward; forwards are in order and lead to values
    that exist. -/
structure Forwarding (g : Graph) : Prop where
  ordered : Ordered g.forwards.pairs
  removed : ∀ v, v ∈ g.forwards.pairs.map Prod.fst ↔ v.index < g.values.size ∧ ¬ g.Attached v
  target_known : ∀ {v w}, (v, Operand.value w) ∈ g.forwards.pairs → w.index < g.values.size

namespace Forwarding

variable {g : Graph}

theorem fresh (name : String) : (Graph.fresh name).Forwarding := by
  refine ⟨trivial, fun v => ?_, fun h => by cases h⟩
  constructor
  · intro h
    cases h
  · rintro ⟨h, -⟩
    exact absurd h (Nat.not_lt_zero _)

theorem not_mem_of_attached (h : g.Forwarding) {v : ValueId} (hv : g.Attached v) :
    v ∉ g.forwards.pairs.map Prod.fst :=
  fun hm => ((h.removed v).1 hm).2 hv

/-- An attached value stands for itself. -/
theorem resolve_of_attached (h : g.Forwarding) {v : ValueId} (hv : g.Attached v) :
    g.resolve (.value v) = .value v := by
  rw [resolve_eq_settle h.ordered]
  refine settle_of_not_mem fun w hw => ?_
  cases hw
  exact h.not_mem_of_attached hv

theorem known_settle (h : g.Forwarding) {ps : List (ValueId × Operand)}
    (hps : ∀ p ∈ ps, p ∈ g.forwards.pairs) {o : Operand}
    (ho : ∀ w, o = .value w → w.index < g.values.size) {w : ValueId}
    (hw : settle ps o = .value w) : w.index < g.values.size := by
  induction ps generalizing w with
  | nil => exact ho w hw
  | cons p ps ih =>
    obtain ⟨v, t⟩ := p
    rw [settle_cons] at hw
    unfold Operand.replace at hw
    split at hw
    · subst hw
      exact h.target_known (hps _ List.mem_cons_self)
    · exact ih (fun p hp => hps p (List.mem_cons_of_mem _ hp)) hw

/-- What an operand stands for is attached. -/
theorem attached_resolve (h : g.Forwarding) {o : Operand}
    (ho : ∀ w, o = .value w → w.index < g.values.size) {w : ValueId}
    (hw : g.resolve o = .value w) : g.Attached w := by
  rw [resolve_eq_settle h.ordered] at hw
  have hk := h.known_settle (fun _ hp => hp) ho hw
  by_contra hn
  exact not_mem_of_settle h.ordered hw ((h.removed w).2 ⟨hk, hn⟩)

/-- What an operand stands for stands for itself. -/
theorem resolve_resolve (h : g.Forwarding) (o : Operand) :
    g.resolve (g.resolve o) = g.resolve o := by
  rw [resolve_eq_settle h.ordered (g.resolve o)]
  refine settle_of_not_mem fun w hw => ?_
  rw [resolve_eq_settle h.ordered] at hw
  exact not_mem_of_settle h.ordered hw

end Forwarding

/-! ## 4. One more removal -/

/-- Who is attached once `v` is retired. -/
theorem Retired.attached {v : ValueId} {o : Operand} {g g' : Graph} (h : Retired v o g g')
    (w : ValueId) : g'.Attached w ↔ g.Attached w ∧ w ≠ v := by
  unfold Attached
  rw [h.value]
  constructor
  · rintro ⟨x', hx', hatt⟩
    obtain ⟨x, hx, rfl⟩ := Option.map_eq_some_iff.1 hx'
    by_cases e : w = v
    · rw [if_pos e] at hatt
      cases hatt
    · rw [if_neg e] at hatt
      refine ⟨⟨x, hx, ?_⟩, e⟩
      by_cases hx : x.isAttached = true
      · exact hx
      · rw [if_neg hx] at hatt
        exact hatt
  · rintro ⟨⟨x, hx, hatt⟩, e⟩
    exact ⟨_, by rw [hx]; rfl, by simp [e, hatt]⟩

/-- **One more removal is one more replacement**: `v` had no forward, so what stood for `v` now
    stands for `o`, and nothing else changes. -/
theorem Retired.resolve {v : ValueId} {o : Operand} {g g' : Graph} (h : Retired v o g g')
    (hg : g.Forwarding) (hg' : g'.Forwarding) (hv : g.Attached v) (a : Operand) :
    g'.resolve a = Operand.replace (.value v) o (g.resolve a) := by
  rw [resolve_eq_settle hg'.ordered, resolve_eq_settle hg.ordered, h.forwards,
    Table.pairs_insert_of_not_mem (hg.not_mem_of_attached hv)]
  rfl

theorem Retired.forwarding {v : ValueId} {o : Operand} {g g' : Graph} (h : Retired v o g g')
    (hg : g.Forwarding) (hv : g.Attached v)
    (ho : ∀ w, o = .value w → g.Attached w ∧ w ≠ v) : g'.Forwarding := by
  have hpairs : g'.forwards.pairs = (v, o) :: g.forwards.pairs := by
    rw [h.forwards, Table.pairs_insert_of_not_mem (hg.not_mem_of_attached hv)]
  refine ⟨?_, fun w => ?_, fun {w u} hm => ?_⟩
  · rw [hpairs]
    exact ⟨hg.not_mem_of_attached hv,
      fun w hw => ⟨(ho w hw).2, hg.not_mem_of_attached (ho w hw).1⟩, hg.ordered⟩
  · rw [hpairs, List.map_cons, List.mem_cons, hg.removed, h.values_size, h.attached]
    constructor
    · rintro (rfl | ⟨hw, hn⟩)
      · obtain ⟨x, hx, -⟩ := hv
        exact ⟨index_lt_of_value? hx, fun hc => hc.2 rfl⟩
      · exact ⟨hw, fun hc => hn hc.1⟩
    · rintro ⟨hw, hn⟩
      by_cases e : w = v
      · exact .inl e
      · exact .inr ⟨hw, fun hc => hn ⟨hc, e⟩⟩
  · rw [hpairs, List.mem_cons] at hm
    rw [h.values_size]
    rcases hm with e | hm
    · obtain ⟨rfl, rfl⟩ := Prod.mk.inj e
      obtain ⟨x, hx, -⟩ := (ho u rfl).1
      exact index_lt_of_value? hx
    · exact hg.target_known hm

end Graph

end BitFlow
