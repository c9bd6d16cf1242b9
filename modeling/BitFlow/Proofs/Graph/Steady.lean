import BitFlow.Proofs.Graph.View

/-!
# Graphs between two steps

A graph is steady when it is in order, its removed values have forwards, everything referred to
exists, and phis refer to attached values only. Between two steps of the algorithms every graph is
steady; instructions may refer to removed values as long as somebody holds on to such an operand.

Main statements: `Graph.Steady.withPhi`, `Graph.Steady.withIncoming`, `Graph.Steady.retired` --
what is done to phis keeps a graph steady.
-/

namespace BitFlow

namespace Graph

/-! ## 1. Steady graphs -/

/-- The operand names no value, or one that exists. -/
def Knows (g : Graph) (o : Operand) : Prop := ∀ w, o = .value w → w.index < g.values.size

/-- The operand names no value, or an attached one. -/
def Anchors (g : Graph) (o : Operand) : Prop := ∀ w, o = .value w → g.Attached w

theorem Anchors.knows {g : Graph} {o : Operand} (h : g.Anchors o) : g.Knows o :=
  fun w hw => (h w hw).index_lt

theorem anchors_lit (g : Graph) (c : Literal) : g.Anchors (.lit c) := fun _ hw => by cases hw

theorem anchors_undef (g : Graph) (ty : Ty) : g.Anchors (.undef ty) := fun _ hw => by cases hw

theorem Alike.anchors {g g' : Graph} (h : g.Alike g') {o : Operand} (ho : g.Anchors o) :
    g'.Anchors o := fun w hw => (h.attached w).2 (ho w hw)

/-- **A graph between two steps.** -/
structure Steady (g : Graph) : Prop where
  orderly : g.Orderly
  forwarding : g.Forwarding
  knows : ∀ {v u}, g.Refers v u → v.index < g.values.size
  phi_anchors : ∀ {v p}, g.phi? v = some p → ∀ o ∈ p.operands, g.Anchors o

theorem Steady.fresh (name : String) : (Graph.fresh name).Steady := by
  refine ⟨.fresh name, .fresh name, ?_, ?_⟩
  · intro v u h
    rw [← (Orderly.fresh name).mem_users] at h
    cases h
  · intro v p h
    cases h

namespace Steady

variable {g g' : Graph}

theorem anchors_resolve (h : g.Steady) {o : Operand} (ho : g.Knows o) : g.Anchors (g.resolve o) :=
  fun _ hw => h.forwarding.attached_resolve ho hw

theorem resolve_of_anchors (h : g.Steady) {o : Operand} (ho : g.Anchors o) : g.resolve o = o := by
  cases o with
  | value v => exact h.forwarding.resolve_of_attached (ho v rfl)
  | lit c => rfl
  | undef ty => rfl

/-! ## 2. New values -/

/-- One more attached value leaves the forwards alone. -/
theorem forwarding_of_new (h : g.Forwarding) (hf : g'.forwards = g.forwards)
    (hs : g'.values.size = g.values.size + 1)
    (hatt : ∀ v, g'.Attached v ↔ v = g.nextValue ∨ g.Attached v) : g'.Forwarding := by
  refine ⟨by rw [hf]; exact h.ordered, fun v => ?_, fun hm => ?_⟩
  · rw [hf, h.removed, hs, hatt]
    constructor
    · rintro ⟨hv, hn⟩
      refine ⟨by omega, ?_⟩
      rintro (rfl | hc)
      · exact Nat.lt_irrefl _ hv
      · exact hn hc
    · rintro ⟨hv, hn⟩
      rw [not_or] at hn
      refine ⟨?_, hn.2⟩
      have : v.index ≠ g.values.size := fun e => hn.1 (by cases v; exact congrArg ValueId.mk e)
      omega
  · rw [hf] at hm
    rw [hs]
    have := h.target_known hm
    omega

/-- **A new phi keeps a graph steady.** -/
theorem withPhi (h : g.Steady) {b : BlockId} {y : Block} (hb : g.block? b = some y) (x : VarId)
    (ty : Ty) : (g.withPhi b x ty).Steady := by
  refine ⟨h.orderly.withPhi hb x ty, forwarding_of_new h.forwarding rfl (size_withPhi g b x ty)
    (attached_withPhi g b x ty), ?_, ?_⟩
  · intro v u hu
    rw [size_withPhi]
    suffices g.Refers v u from Nat.lt_succ_of_lt (h.knows this)
    cases u with
    | value w =>
      rw [refers_value_iff, phi?_withPhi, instr?_withPhi] at hu
      rw [refers_value_iff]
      rcases hu with ⟨p, hp, hm⟩ | hi
      · split at hp
        · cases hp
          cases hm
        · exact .inl ⟨p, hp, hm⟩
      · exact .inr hi
    | branch c =>
      obtain ⟨y', hy', br, hbr, hc⟩ := hu
      rw [block?_withPhi] at hy'
      obtain ⟨z, hz, rfl⟩ := Option.map_eq_some_iff.1 hy'
      exact ⟨z, hz, br, hbr, hc⟩
  · intro v p hp o ho w hw
    rw [attached_withPhi]
    rw [phi?_withPhi] at hp
    split at hp
    · cases hp
      cases ho
    · exact .inr (h.phi_anchors hp o ho w hw)

/-! ## 3. Changes of phis -/

/-- **A further operand of a phi keeps a graph steady**, if it is attached. -/
theorem withIncoming (h : g.Steady) {v : ValueId} {p : OwnedPhi} (hv : g.phi? v = some p)
    {o : Operand} (ho : g.Anchors o) (q : BlockId) :
    (g.withIncoming v ⟨p.var, p.incoming⟩ o q).Steady := by
  obtain ⟨x, hx, hxb, -, hk⟩ := phi?_eq_some.1 hv
  have hatt : x.isAttached = true := by
    unfold Value.isAttached
    rw [hxb]
    rfl
  refine ⟨h.orderly.withIncoming hx hatt hk o q, ⟨?_, fun w => ?_, fun hm => ?_⟩, ?_, ?_⟩
  · rw [forwards_withIncoming]
    exact h.forwarding.ordered
  · rw [forwards_withIncoming, size_withIncoming, attached_withIncoming hv]
    exact h.forwarding.removed w
  · rw [forwards_withIncoming] at hm
    rw [size_withIncoming]
    exact h.forwarding.target_known hm
  · intro w u hu
    rw [size_withIncoming]
    cases u with
    | value t =>
      rw [refers_value_iff, phi?_withIncoming hv, instr?_withIncoming hv] at hu
      rcases hu with ⟨p', hp', hm⟩ | hi
      · split at hp'
        · rename_i e
          cases hp'
          have hm' : Operand.value w ∈ p.operands ∨ Operand.value w = o := by
            simpa [OwnedPhi.operands, OwnedPhi.push] using hm
          rcases hm' with hm' | hm'
          · exact (h.phi_anchors hv _ hm' w rfl).index_lt
          · exact (ho w hm'.symm).index_lt
        · exact h.knows (refers_value_iff.2 (.inl ⟨p', hp', hm⟩))
      · exact h.knows (refers_value_iff.2 (.inr hi))
    | branch c =>
      rw [refers_branch, block?_withIncoming] at hu
      exact h.knows ((refers_branch g w c).2 hu)
  · intro w p' hp' a ha u hu
    rw [attached_withIncoming hv]
    rw [phi?_withIncoming hv] at hp'
    split at hp'
    · cases hp'
      have ha' : a ∈ p.operands ∨ a = o := by
        simpa [OwnedPhi.operands, OwnedPhi.push] using ha
      rcases ha' with ha' | rfl
      · exact h.phi_anchors hv a ha' u hu
      · exact ho u hu
    · exact h.phi_anchors hp' a ha u hu

/-- Replacing `v` by an attached operand other than `v` keeps what is anchored anchored. -/
theorem anchors_replace {v : ValueId} {o : Operand} (hr : Retired v o g g') (ho : g.Anchors o)
    (hne : o ≠ .value v) {a : Operand} (ha : g.Anchors a) :
    g'.Anchors (Operand.replace (.value v) o a) := by
  intro w hw
  rw [hr.attached]
  unfold Operand.replace at hw
  split at hw
  · refine ⟨ho w hw, ?_⟩
    rintro rfl
    exact hne hw
  · rename_i hav
    refine ⟨ha w hw, ?_⟩
    rintro rfl
    exact hav hw

/-- **Retiring a phi in favour of an attached operand keeps a graph steady.** -/
theorem retired (h : g.Steady) {v : ValueId} {o : Operand} (hr : Retired v o g g')
    (hv : g.Attached v) (ho : g.Anchors o) (hne : o ≠ .value v) : g'.Steady := by
  have hov : ∀ w, o = .value w → g.Attached w ∧ w ≠ v := by
    intro w hw
    refine ⟨ho w hw, ?_⟩
    rintro rfl
    exact hne hw
  refine ⟨hr.orderly, hr.forwarding h.forwarding hv hov, ?_, ?_⟩
  · intro w u hu
    rw [hr.values_size]
    cases u with
    | value t =>
      obtain ⟨x', hx', hatt, hm⟩ := hu
      rw [hr.value] at hx'
      obtain ⟨x, hx, rfl⟩ := Option.map_eq_some_iff.1 hx'
      split at hatt
      · cases hatt
      · rename_i e
        rw [if_neg e] at hm
        by_cases hxa : x.isAttached = true
        · rw [if_pos hxa, Value.operands_replace, Operand.mem_map_replace] at hm
          rcases hm with ⟨-, hm⟩ | ⟨e', -⟩
          · exact h.knows ((refers_value g w t).2 ⟨x, hx, hxa, hm⟩)
          · exact (ho w e').index_lt
        · rw [if_neg hxa] at hatt
          exact absurd hatt hxa
    | branch c =>
      obtain ⟨y', hy', hbr⟩ := hu
      rw [hr.block] at hy'
      obtain ⟨y, hy, rfl⟩ := Option.map_eq_some_iff.1 hy'
      rcases Block.exists_cond_replaceConds.1 hbr with ⟨-, hc⟩ | ⟨e', -⟩
      · exact h.knows ((refers_branch g w c).2 ⟨y, hy, hc⟩)
      · exact (ho w e').index_lt
  · intro w p' hp' a ha
    rw [hr.phi?] at hp'
    split at hp'
    · cases hp'
    · obtain ⟨p, hp, rfl⟩ := Option.map_eq_some_iff.1 hp'
      rw [OwnedPhi.operands_replace] at ha
      obtain ⟨a', ha', rfl⟩ := List.mem_map.1 ha
      exact anchors_replace hr ho hne (h.phi_anchors hp a' ha')

theorem alike (h : g.Steady) (ha : g.Alike g') : g'.Steady := by
  have hU : ∀ v u, g'.Refers v u → g.Refers v u := by
    intro v u hu
    rw [← (h.orderly.alike ha).mem_users] at hu
    rw [← h.orderly.mem_users]
    unfold Graph.users at *
    rw [ha.uses] at hu
    exact hu
  refine ⟨h.orderly.alike ha, h.forwarding.alike ha, ?_, ?_⟩
  · intro v u hu
    rw [ha.size]
    exact h.knows (hU v u hu)
  · intro v p hp o ho w hw
    rw [ha.phi?] at hp
    rw [ha.attached]
    exact h.phi_anchors hp o ho w hw

end Steady

end Graph

end BitFlow
