import BitFlow.Proofs.Course.Forwards

/-!
# The table of definitions between two operations

Whenever the lowering of a program is between two operations, the table of definitions and its
inverse are in step, the inverse keeps no entry for a value that no place records, and every value
that some place records is attached to a block.

The first is part of what every move keeps (`Moves.idle`). The other two are `Tracked.Tethered`. A
place that records a phi which is removed is sent on to what stands for the phi, in the middle of
whatever read brought the removal about; and a write records an operand that has stayed attached
since it was computed.

Main statements: `Step.tethered`, `Move.tethered` -- every step of a read and every move keeps
recorded values attached; `Program.definitions_of_meets`.
-/

namespace BitFlow

/-! ## 1. The inverse keeps no empty sets -/

namespace Multimap

variable {κ α : Type} [DecidableEq κ]

/-- A key that is related to nothing has no entry. -/
theorem Tight.get?_eq_none {m : Multimap κ α} (h : m.Tight) {k : κ} (hk : ∀ a, a ∉ m.image k) :
    m.table.get? k = none := by
  cases hm : m.table.get? k with
  | none => rfl
  | some as =>
    have himage : m.image k = as := by
      unfold image
      rw [hm]
      rfl
    obtain ⟨before, behind, hpairs, -⟩ := List.lookup_eq_some_iff.1 hm
    have hmem : (k, as) ∈ m.table.pairs := by
      rw [hpairs]
      exact List.mem_append_right before List.mem_cons_self
    have hne : as ≠ [] := h (k, as) hmem
    exact absurd (List.eq_nil_iff_forall_not_mem.2 (himage ▸ hk)) hne

end Multimap

namespace Reaching

theorem tight_record {r : Reaching} (h : r.holders.Tight) (x : VarId) (b : BlockId) (o : Operand) :
    (r.record x b o).holders.Tight := by
  have hun : (r.unhold (b, x)).Tight := by
    unfold unhold
    split
    · exact h.setImage _ _
    · exact h
  cases o with
  | value v => exact hun.setImage _ _
  | lit c => exact hun
  | undef ty => exact hun

theorem tight_reroute {r : Reaching} (h : r.holders.Tight) (v : ValueId) (o : Operand) :
    (r.reroute v o).holders.Tight := by
  have hfold : ∀ (ps : List (BlockId × VarId)) (r : Reaching), r.holders.Tight →
      (ps.foldl (fun r p => r.record p.2 p.1 o) r).holders.Tight := by
    intro ps
    induction ps with
    | nil => exact fun _ hr => hr
    | cons p ps ih => exact fun r hr => ih _ (tight_record hr p.2 p.1 o)
  exact hfold _ _ (h.setImage v [])

end Reaching

/-! ## 2. Recorded values are attached -/

/-- **Every value that some place records is attached**, and the inverse of the table keeps no empty
    sets. -/
structure Tracked.Tethered (s : Tracked) : Prop where
  tight : s.reaching.holders.Tight
  anchors : ∀ {q o}, s.reaching.defs.get? q = some o → s.graph.Anchors o

namespace Tracked.Tethered

variable {s t : Tracked}

/-- Only the graph changes, and what is attached in it stays attached. -/
theorem mono (h : s.Tethered) {g : Graph} (hg : ∀ v, s.graph.Attached v → g.Attached v) :
    Tethered ⟨g, s.reaching⟩ :=
  ⟨h.tight, fun hq w hw => hg w (h.anchors hq w hw)⟩

/-- Graph, definitions and their inverse are the same. -/
theorem congr (h : s.Tethered) (hg : t.graph = s.graph)
    (hd : t.reaching.defs = s.reaching.defs) (hh : t.reaching.holders = s.reaching.holders) :
    t.Tethered := by
  refine ⟨hh ▸ h.tight, fun {q o} hq => ?_⟩
  rw [hd] at hq
  rw [hg]
  exact h.anchors hq

theorem recorded (h : s.Tethered) (x : VarId) (b : BlockId) {o : Operand}
    (ho : s.graph.Anchors o) : (s.recorded x b o).Tethered := by
  refine ⟨Reaching.tight_record h.tight x b o, fun {q a} hq => ?_⟩
  change (s.reaching.record x b o).defs.get? q = some a at hq
  rw [Reaching.get?_record] at hq
  split at hq
  · cases hq
    exact ho
  · exact h.anchors hq

/-- A new phi is recorded in its block. -/
theorem withPhi (h : s.Tethered) (b : BlockId) (x : VarId) (ty : Ty) :
    Tethered ⟨s.graph.withPhi b x ty, s.reaching.record x b (.value s.graph.nextValue)⟩ := by
  have hatt := s.graph.attached_withPhi b x ty
  have hgrown : Tethered ⟨s.graph.withPhi b x ty, s.reaching⟩ :=
    h.mono fun v hv => (hatt v).2 (.inr hv)
  refine hgrown.recorded x b fun w hw => ?_
  cases hw
  exact (hatt _).2 (.inl rfl)

/-- The places that record a retired phi are sent on to an operand that is attached. -/
theorem retired (h : s.Tethered) {closing : Option BlockId} (hs : Sane closing s) {v : ValueId}
    {p : OwnedPhi} {o : Operand} {g : Graph} (hp : s.graph.phi? v = some p)
    (ho : soleOperand (.value v) (.undef p.ty) p.operands = some o)
    (hg : Graph.Retired v o s.graph g) : Tethered ⟨g, s.reaching.reroute v o⟩ := by
  obtain ⟨hoa, hne⟩ := hs.anchors_sole hp ho
  refine ⟨Reaching.tight_reroute h.tight v o, fun {q a} hq => ?_⟩
  change (s.reaching.reroute v o).defs.get? q = some a at hq
  rw [Reaching.get?_reroute hs.mirrored] at hq
  obtain ⟨a', ha', rfl⟩ := Option.map_eq_some_iff.1 hq
  exact Graph.Steady.anchors_replace hg hoa hne (h.anchors ha')

theorem alike (h : s.Tethered) (ha : s.Alike t) : t.Tethered := by
  refine ⟨?_, fun {q o} hq => ?_⟩
  · rw [ha.holders]
    exact h.tight
  · rw [ha.defs] at hq
    exact ha.graph.anchors (h.anchors hq)

end Tracked.Tethered

section Steps

variable {floor : Nat} {scope : VarId → Prop} {closing : Option BlockId} {s t : Tracked}

/-- **Every step of reading or sealing keeps recorded values attached.** -/
theorem Step.tethered {new : Option NewPhi} (hstep : Step floor scope closing s new t)
    (hs : Sane closing s) (h : s.Tethered) : t.Tethered := by
  cases hstep with
  | opened => exact (h.withPhi _ _ _).congr rfl rfl rfl
  | awaited => exact (h.withPhi _ _ _).congr rfl rfl rfl
  | started => exact h.congr rfl rfl rfl
  | pushed _ _ hp => exact h.mono fun w hw => (Graph.attached_withIncoming hp _ _ w).2 hw
  | filled => exact h.congr rfl rfl rfl
  | retired _ hp _ _ ho hg => exact h.retired hs hp ho hg
  | recorded _ ho => exact h.recorded _ _ (hs.anchors_reads ho)
  | alike ha => exact h.alike ha

theorem Steps.tethered {made : List NewPhi} (hsteps : Steps floor scope closing s made t)
    (hs : Sane closing s) (h : s.Tethered) : t.Tethered := by
  induction hsteps with
  | refl => exact h
  | cons hstep _ ih => exact ih (hs.step hstep) (hstep.tethered hs h)

end Steps

/-- **Every move keeps recorded values attached.** -/
theorem Move.tethered {p : Program} {s t : Tracked} (hm : Move p s t) (hs : Idle s)
    (h : s.Tethered) : t.Tethered := by
  cases hm with
  | read run =>
    obtain ⟨made, hst⟩ := (Track.didRead_of_run hs.sane run).steps
    exact hst.tethered hs.sane h
  | sealed run =>
    rename_i b
    obtain ⟨y, made, u, -, hst, -, rfl, -⟩ := Track.sealed_of_run hs.sane run
    exact (hst.tethered (hs.sane.closing b) h).mono fun v hv => hv
  | block => exact h.mono fun v hv => hv
  | edge =>
    refine h.mono fun v ⟨x, hx, hatt⟩ => ⟨x, ?_, hatt⟩
    rw [Graph.value?_link]
    exact hx
  | instr _ _ _ place origin =>
    exact h.mono fun v hv => (s.graph.attached_withInstr _ place _ origin _ v).2 (.inr hv)
  | write _ _ anchored b _ => exact h.recorded _ b anchored
  | kill => exact h.mono fun v hv => hv
  | alike ha => exact h.alike ha

theorem Moves.tethered {p : Program} {s t : Tracked} (hm : Moves p s t) (hs : Idle s)
    (h : s.Tethered) : t.Tethered := by
  induction hm with
  | refl => exact h
  | tail hchain hmove ih => exact hmove.tethered (Moves.idle hchain hs) ih

/-! ## 3. Programs -/

namespace Program

theorem tethered_start (p : Program) (s : Settings) : (Lowering.start p s).tracked.Tethered :=
  ⟨.empty, fun hq => by cases hq⟩

/-- **The table of definitions and its inverse are in step between any two operations** of a
    lowering: the inverse lists under a value exactly the places that record it, has no entry for
    a value that none records, and every recorded value is attached to a block. -/
theorem definitions_of_meets {p : Program} {s : Settings} {t : Tracked} (ht : p.Meets s t) :
    (∀ v q, q ∈ t.reaching.holders.image v ↔ t.reaching.defs.get? q = some (.value v)) ∧
    (∀ v, (∀ q, t.reaching.defs.get? q ≠ some (.value v)) →
      t.reaching.holders.table.get? v = none) ∧
    ∀ q v, t.reaching.defs.get? q = some (.value v) →
      ∃ x b, t.graph.value? v = some x ∧ x.block = some b := by
  have hidle : Idle t := ht.moves.idle (.start p s)
  have hteth : t.Tethered := ht.moves.tethered (.start p s) (tethered_start p s)
  have hmirror : ∀ v q, q ∈ t.reaching.holders.image v ↔
      t.reaching.defs.get? q = some (.value v) := fun v q =>
    (hidle.sane.mirrored v q).trans (and_iff_right id)
  refine ⟨hmirror, fun v hv => ?_, fun q v hq => ?_⟩
  · exact hteth.tight.get?_eq_none fun q hq => hv q ((hmirror v q).1 hq)
  · obtain ⟨x, hx, hatt⟩ := hteth.anchors hq v rfl
    obtain ⟨b, hb⟩ := Option.isSome_iff_exists.1 hatt
    exact ⟨x, b, hx, hb⟩

/-- Whether a lowering comes to its end, and with graph and tables that pass a test. -/
def finishesWith (p : Program) (s : Settings) (test : Tracked → Bool) : Bool :=
  match (Lower.program p).run (.start p s) with
  | .ok _ l => test l.tracked
  | .error _ _ => false

theorem meets_of_finishesWith {p : Program} {s : Settings} {test : Tracked → Bool}
    (h : p.finishesWith s test = true) : ∃ t, p.Meets s t ∧ test t = true := by
  unfold finishesWith at h
  split at h
  · rename_i b l run
    exact ⟨l.tracked, meets_of_run run, h⟩
  · cases h

/-- At the end of the lowering of `echoing` the phi of its loop is gone: the head of the loop, which
    recorded it, records the datum, and the inverse has no entry for the phi. -/
theorem definitions_echoing : ∃ t, echoing.Meets Preset.fast.settings t ∧ t.graph.Removed ⟨1⟩ ∧
    t.reaching.defs.get? (⟨1⟩, ⟨0⟩) = some (.value ⟨0⟩) ∧
    (⟨1⟩, ⟨0⟩) ∈ t.reaching.holders.image ⟨0⟩ ∧ t.reaching.holders.table.get? ⟨1⟩ = none := by
  have hend : echoing.finishesWith Preset.fast.settings (fun t =>
      ((t.graph.value? ⟨1⟩).any fun x => !x.isAttached) &&
        t.reaching.defs.get? (⟨1⟩, ⟨0⟩) == some (.value ⟨0⟩)) = true := by decide +kernel
  obtain ⟨t, ht, htest⟩ := meets_of_finishesWith hend
  rw [Bool.and_eq_true, Option.any_eq_true, beq_iff_eq] at htest
  obtain ⟨⟨x, hx, hgone⟩, hdef⟩ := htest
  rw [Bool.not_eq_true'] at hgone
  obtain ⟨hmirror, habsent, hattached⟩ := definitions_of_meets ht
  refine ⟨t, ht, ⟨x, hx, hgone⟩, hdef, (hmirror _ _).2 hdef, habsent _ fun q hq => ?_⟩
  obtain ⟨y, c, hy, hc⟩ := hattached q _ hq
  cases hx.symm.trans hy
  unfold Value.isAttached at hgone
  rw [hc] at hgone
  cases hgone

end Program

end BitFlow
