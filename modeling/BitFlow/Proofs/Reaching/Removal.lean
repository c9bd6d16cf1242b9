import BitFlow.Proofs.Outcome
import BitFlow.Proofs.Reaching.Pruned
import Mathlib.Data.List.Perm.Subperm

/-!
# Removing superfluous phis

The removal of a phi with all that follows from it is a chain of retirements, and it comes to an
end: each retirement makes a forward, and there are no more forwards than values.

Main statement: `Track.ends_removeTrivial` -- on consistent graph and tables the removal succeeds,
and its answer is what the phi then stands for.
-/

namespace BitFlow

namespace Track

variable {α : Type} {s : Tracked} {R : Fault → Prop}

/-! ## 1. Computations on graph and tables -/

theorem ends_lift {Q : α → Tracked → Prop} (x : Edit α) :
    Ends (liftM x : Track α) s R Q ↔ Ends x s.graph R fun a g => Q a { s with graph := g } :=
  Ends.focus_iff x

theorem ends_onGraph {Q : α → Tracked → Prop} (x : Edit α) :
    Ends (onGraph x) s R Q ↔ Ends x s.graph R fun a g => Q a { s with graph := g } :=
  Ends.focus_iff x

theorem ends_onTables {Q : Unit → Tracked → Prop} (f : Reaching → Reaching) :
    Ends (onTables f) s R Q ↔ Q () { s with reaching := f s.reaching } := Iff.rfl

theorem ends_resolve {Q : Operand → Tracked → Prop} (o : Operand) :
    Ends (liftM (Edit.resolve o) : Track Operand) s R Q ↔ Q (s.graph.resolve o) s := by
  rw [ends_lift]
  exact Iff.rfl

theorem ends_ask {Q : α → Tracked → Prop} {q : Graph → Except Fault α} {a : α}
    (h : q s.graph = .ok a) : Ends (ask q) s R Q ↔ Q a s := by
  unfold ask
  rw [Ends.bind_iff, Ends.get_iff, h, Ends.pure_iff]

/-! ## 2. One retirement -/

/-- What the check for superfluous phis answers for an attached phi. -/
theorem trivialReplacement_eq {g : Graph} (hg : g.Steady) {v : ValueId} {p : OwnedPhi}
    (hp : g.phi? v = some p) :
    g.trivialReplacement v =
      .ok (if p.incoming.length = (g.preds p.block).length then
        soleOperand (.value v) (.undef p.ty) p.operands else none) := by
  obtain ⟨x, hx, hb, ht, hk⟩ := Graph.phi?_eq_some.1 hp
  obtain ⟨y, hy⟩ := hg.orderly.owner_known hx hb
  unfold Graph.trivialReplacement Graph.requireValue Graph.requireBlock
  rw [hx, Graph.preds_of_block? hy]
  simp only [bind, Except.bind, hb, hk, hy, ht]
  split <;> rfl

/-- **What is superfluous is a phi, and stands for one of its operands**, or for the undefined one
    of its type. -/
theorem exists_of_trivialReplacement {g : Graph} {v : ValueId} {o : Operand}
    (h : g.trivialReplacement v = .ok (some o)) :
    ∃ x, g.value? v = some x ∧ x.isPhi = true ∧ (o ∈ x.operands ∨ o = .undef x.ty) := by
  unfold Graph.trivialReplacement Graph.requireValue at h
  cases hx : g.value? v with
  | none =>
    rw [hx] at h
    cases h
  | some x =>
    rw [hx] at h
    dsimp only [Bind.bind, Except.bind] at h
    split at h
    · cases h
    · split at h
      · cases h
      · rename_i phi hkind
        split at h
        · cases h
        · split at h
          · have hphi : x.isPhi = true := by
              unfold Value.isPhi
              rw [hkind]
            refine ⟨x, rfl, hphi, (soleOperand_eq_some (Except.ok.inj h)).2.imp (fun hmem => ?_)
              And.left⟩
            unfold Value.operands
            rw [hkind]
            exact hmem.1
          · cases h

/-- Retiring a phi succeeds, and the answer lists those who referred to it. -/
theorem ends_retire (hs : s.graph.Steady) {v : ValueId} {p : OwnedPhi} {o : Operand}
    (hp : s.graph.phi? v = some p) :
    Ends (retire v o) s R fun former t => former = s.graph.users v ∧
      ∃ g, Graph.Retired v o s.graph g ∧ t = ⟨g, (s.reaching.reroute v o).countRemoved⟩ := by
  obtain ⟨x, hx, hb, -, hk⟩ := Graph.phi?_eq_some.1 hp
  have hphi : x.isPhi = true := by
    unfold Value.isPhi
    rw [hk]
  obtain ⟨y, hy⟩ := hs.orderly.owner_known hx hb
  unfold retire
  rw [Ends.bind_iff, ends_lift]
  refine (Edit.ends_replaceUses (v := v) (fun _ => hs.orderly.knowsUser) o).mono fun former g₁ h => ?_
  obtain ⟨rfl, hre⟩ := h
  -- `v` and its block as they stand once everybody refers to `o`
  have hatt : x.isAttached = true := by
    unfold Value.isAttached
    rw [hb]
    rfl
  have hx₁ : g₁.value? v = some (x.replace (.value v) o) := by
    rw [hre.value, hx, Option.map_some, hs.orderly.replace_of_users hx hatt]
  have hy₁ := hre.block p.block
  rw [hy, Option.map_some] at hy₁
  rw [Ends.bind_iff, ends_lift, Edit.ends_detach hx₁ hb hy₁, Ends.bind_iff, ends_onGraph,
    Ends.modify_iff, Ends.bind_iff, ends_onTables, Ends.pure_iff]
  exact ⟨rfl, _, hre.retired hs.orderly hx hb hphi, rfl⟩

/-! ## 3. The cascade -/

/-- There are no more forwards than values. -/
theorem length_forwards_le {g : Graph} (h : g.Forwarding) :
    g.forwards.pairs.length ≤ g.values.size := by
  have hnodup : ∀ {ps : List (ValueId × Operand)}, Forwards.Ordered ps →
      (ps.map Prod.fst).Nodup := by
    intro ps
    induction ps with
    | nil => exact fun _ => List.nodup_nil
    | cons p ps ih => exact fun hps => List.nodup_cons.2 ⟨hps.1, ih hps.2.2⟩
  have hsub : g.forwards.pairs.map Prod.fst ⊆ (List.range g.values.size).map ValueId.mk := by
    intro v hv
    exact List.mem_map.2 ⟨v.index, List.mem_range.2 ((h.removed v).1 hv).1, rfl⟩
  have := (List.subperm_of_subset (hnodup h.ordered) hsub).length_le
  rw [List.length_map, List.length_map, List.length_range] at this
  exact this

variable {floor : Nat} {scope : VarId → Prop} {closing : Option BlockId}

/-- What the removal of the phi `v` leaves: a chain of steps that makes no phi and touches neither
    those being filled nor those that wait. -/
structure Removes (floor : Nat) (scope : VarId → Prop) (closing : Option BlockId) (s t : Tracked) :
    Prop where
  steps : Steps floor scope closing s [] t
  filling : t.reaching.filling = s.reaching.filling
  pending : t.reaching.pending = s.reaching.pending

theorem Removes.refl (s : Tracked) : Removes floor scope closing s s := ⟨.refl s, rfl, rfl⟩

theorem Removes.trans {s t u : Tracked} (h : Removes floor scope closing s t)
    (h' : Removes floor scope closing t u) : Removes floor scope closing s u :=
  ⟨h.steps.trans h'.steps, h'.filling.trans h.filling, h'.pending.trans h.pending⟩

/-- A phi that can be removed: above the floor, no instruction, and neither being filled nor
    waiting. -/
structure Removable (floor : Nat) (s : Tracked) (v : ValueId) : Prop where
  above : floor ≤ v.index
  known : v.index < s.graph.values.size
  no_instr : s.graph.instr? v = none
  not_filling : v ∉ s.reaching.filling
  not_pending : ∀ b x, (x, v) ∉ s.reaching.pending.image b

/-- A former user of a phi that is a phi itself and not being filled can be removed. -/
theorem removable_of_refers {u : ValueId} (hs : Sane closing s) {v : ValueId} {p : OwnedPhi}
    (hu : s.graph.phi? u = some p) (hm : Operand.value v ∈ p.operands) (hf : floor ≤ u.index)
    (hfill : u ∉ s.reaching.filling) : Removable floor s u := by
  obtain ⟨x, hx, hb, ht, hk⟩ := Graph.phi?_eq_some.1 hu
  refine ⟨hf, Graph.index_lt_of_value? hx, ?_, hfill, fun b y hc => ?_⟩
  · unfold Graph.instr?
    rw [hx]
    simp [Value.instr?, hb, hk]
  · -- one that waits has no operand
    obtain ⟨⟨ty, hp⟩, -⟩ := hs.pending hc
    rw [hu] at hp
    cases hp
    cases hm

/-- The phi `v` has no operand, and its block has no predecessor. -/
def Unfed (s : Tracked) (v : ValueId) : Prop :=
  ∃ p, s.graph.phi? v = some p ∧ p.incoming = [] ∧ s.graph.preds p.block = []

/-- **The removal of a phi comes to an end**, and the answer is what the phi then stands for. One
    without operands is removed for sure. If all phis but `v` were needed, all are needed
    afterwards: those that came to be superfluous on the way are former users and are looked at
    again. -/
theorem ends_removeTrivialWithin (n : Nat) : ∀ (s : Tracked) (v : ValueId), Sane closing s →
    s.graph.Apart floor → Removable floor s v →
    s.graph.values.size < n + s.graph.forwards.pairs.length →
    Ends (removeTrivialWithin n v) s R fun o t =>
      Removes floor scope closing s t ∧ o = t.graph.resolve (.value v) ∧
        (Unfed s v → t.graph.phi? v = none) ∧
        ∀ T : ValueId → Prop, s.Pruned (fun w => w = v ∨ T w) → t.Pruned T := by
  induction n with
  | zero =>
    intro s v hs _ _ hn
    have := length_forwards_le hs.steady.forwarding
    omega
  | succ n ih =>
    intro s v hs hapart hv hn
    obtain ⟨x, hx⟩ := Graph.exists_value? hv.known
    unfold removeTrivialWithin
    rw [Ends.bind_iff, ends_lift, Edit.ends_value hx]
    by_cases hatt : x.isAttached = true
    · have hphi : ∃ p, s.graph.phi? v = some p := by
        rcases Graph.attached_iff.1 ⟨x, hx, hatt⟩ with hp | ⟨i, hi⟩
        · exact hp
        · rw [hv.no_instr] at hi
          cases hi
      obtain ⟨p, hp⟩ := hphi
      rw [if_pos hatt, Ends.bind_iff, ends_ask (trivialReplacement_eq hs.steady hp)]
      split
      · rw [Ends.pure_iff]
        rename_i hnone
        refine ⟨.refl s, (hs.steady.forwarding.resolve_of_attached
          (Graph.attached_of_phi? hp)).symm, ?_, fun T hT => hT.one fun p' hp' _ => ?_⟩
        · rintro ⟨p', hp', hin, hpre⟩
          cases hp.symm.trans hp'
          unfold OwnedPhi.operands at hnone
          rw [hin, hpre] at hnone
          cases hnone
        · -- it has all its operands, so it was compared
          cases hp.symm.trans hp'
          have hlen : p.incoming.length = (s.graph.preds p.block).length := by
            rw [← (hs.complete hp hv.not_filling hv.not_pending).1]
            exact (List.length_map _).symm
          rwa [if_pos hlen] at hnone
      · rename_i o ho
        have hsole : soleOperand (.value v) (.undef p.ty) p.operands = some o := by
          split at ho
          · exact ho
          · cases ho
        rw [Ends.bind_iff]
        refine (ends_retire hs.steady hp).mono fun former t h => ?_
        obtain ⟨rfl, g, hg, rfl⟩ := h
        -- the retirement is one step, the count another
        have hstep : Step floor scope closing s none ⟨g, s.reaching.reroute v o⟩ :=
          .retired hv.above hp hv.not_filling hv.not_pending hsole hg
        have hs₁ := hs.step hstep
        have hcount : Step floor scope closing ⟨g, s.reaching.reroute v o⟩ none
            ⟨g, (s.reaching.reroute v o).countRemoved⟩ :=
          .alike ⟨.refl g, rfl, rfl, rfl, rfl, rfl⟩
        obtain ⟨defs, holders, hr⟩ := s.reaching.reroute_eq v o
        have h0 : Removes floor scope closing s ⟨g, (s.reaching.reroute v o).countRemoved⟩ := by
          refine ⟨.cons hstep (.single hcount), ?_, ?_⟩
          · show (s.reaching.reroute v o).filling = _
            rw [hr]
          · show (s.reaching.reroute v o).pending = _
            rw [hr]
        have hlen : g.forwards.pairs.length = s.graph.forwards.pairs.length + 1 := by
          rw [hg.forwards, Table.pairs_insert_of_not_mem
            (hs.steady.forwarding.not_mem_of_attached (Graph.attached_of_phi? hp))]
          rfl
        rw [Ends.bind_iff]
        refine (Ends.forM (fun done t => Removes floor scope closing s t ∧
          s.graph.forwards.pairs.length < t.graph.forwards.pairs.length ∧
          t.graph.resolve (.value v) = t.graph.resolve o ∧ t.graph.phi? v = none ∧
          ∀ T : ValueId → Prop, s.Pruned (fun w => w = v ∨ T w) → t.Pruned fun w => T w ∨
            (User.value w ∈ s.graph.users v ∧ User.value w ∉ done)) _ ?_ ?_).mono ?_
        · have hgone : g.phi? v = none := by
            rw [hg.phi?, if_pos rfl]
          refine ⟨h0, Nat.lt_of_lt_of_eq (Nat.lt_succ_self _) hlen.symm, ?_, hgone, fun T hT => ?_⟩
          rotate_left
          · refine ((hT.retired hs.steady hg).alike (s := ⟨g, s.reaching.reroute v o⟩)
              ⟨.refl g, rfl, rfl, rfl, rfl, rfl⟩).mono fun w hw => ?_
            exact hw.imp_right fun hm => ⟨hm, List.not_mem_nil⟩
          have hres := hg.resolve hs.steady.forwarding hs₁.steady.forwarding
            (Graph.attached_of_phi? hp)
          rw [show (Tracked.mk g _).graph.resolve (.value v) = _ from hres _,
            hs.steady.forwarding.resolve_of_attached (Graph.attached_of_phi? hp),
            show Operand.replace (.value v) o (.value v) = o from if_pos rfl]
          exact (hs₁.steady.resolve_of_anchors (by
            have := Graph.Steady.anchors_replace hg (hs.anchors_sole hp hsole).1
              (hs.anchors_sole hp hsole).2 (hs.anchors_sole hp hsole).1
            rwa [Operand.replace_of_ne (hs.anchors_sole hp hsole).2] at this)).symm
        · intro done u rest t hlist ⟨hrem, hfwd, hres, hgone, hprune⟩
          have hu : u ∈ s.graph.users v := hlist ▸ List.mem_append_right done List.mem_cons_self
          have ht := hrem.steps.sane hs
          have hmade := hrem.steps.size
          -- the user that is looked at leaves those still to be looked at
          have hnext : ∀ (T : ValueId → Prop) w, T w ∨ (User.value w ∈ s.graph.users v ∧
              User.value w ∉ done) → User.value w = u ∨ T w ∨
                (User.value w ∈ s.graph.users v ∧ User.value w ∉ done ++ [u]) := by
            rintro T w (hT | ⟨hm, hd⟩)
            · exact .inr (.inl hT)
            · by_cases e : User.value w = u
              · exact .inl e
              · exact .inr (.inr ⟨hm, by simp [hd, e]⟩)
          cases u with
          | branch b =>
            refine ⟨hrem, hfwd, hres, hgone, fun T hT => (hprune T hT).mono fun w hw => ?_⟩
            exact (hnext T w hw).resolve_left fun e => by cases e
          | value u =>
            have hrest : ∀ T : ValueId → Prop, s.Pruned (fun w => w = v ∨ T w) →
                t.Pruned fun w => w = u ∨
                  (T w ∨ (User.value w ∈ s.graph.users v ∧ User.value w ∉ done ++ [.value u])) :=
              fun T hT => (hprune T hT).mono fun w hw => (hnext T w hw).imp_left User.value.inj
            unfold recheck
            rw [Ends.bind_iff, Ends.get_iff]
            split
            · rename_i hskip
              refine ⟨hrem, hfwd, hres, hgone, fun T hT => (hrest T hT).one fun p' hp' hf => ?_⟩
              rcases hskip with rfl | hskip
              · rw [hgone] at hp'
                cases hp'
              · exact absurd hskip hf
            · rename_i hskip
              rw [not_or] at hskip
              have href := (hs.steady.orderly.mem_users v _).1 hu
              have hfu : floor ≤ u.index := hapart v u hv.above href
              obtain ⟨xu, hxu, -, -⟩ := (Graph.refers_value _ _ _).1 href
              have hku : u.index < t.graph.values.size := by
                rw [hmade]
                exact Nat.lt_of_lt_of_le (Graph.index_lt_of_value? hxu) (Nat.le_add_right _ _)
              obtain ⟨xt, hxt⟩ := Graph.exists_value? hku
              rw [Ends.bind_iff, ends_lift, Edit.ends_value hxt]
              split
              · rename_i hcond
                rw [Bool.and_eq_true] at hcond
                -- `u` is a phi now, so it was one that referred to `v`
                have hit : t.graph.instr? u = none := by
                  unfold Graph.instr? Value.instr?
                  rw [hxt, Option.bind_some]
                  have := hcond.1
                  unfold Value.isPhi at this
                  split at this
                  · rename_i q hq
                    rw [hq]
                    cases xt.block <;> rfl
                  · cases this
                have hpu : Removable floor s u := by
                  rcases Graph.refers_value_iff.1 href with ⟨pu, hpu, hm⟩ | ⟨i, hi, -⟩
                  · refine removable_of_refers hs hpu hm hfu ?_
                    rw [← hrem.filling]
                    exact hskip.2
                  · have hk := hrem.steps.mono (Nat.zero_le floor) (fun x hx => hx)
                    have := (hk.kept hs (Nat.zero_le _)).instr_home u
                    rw [hit, hi] at this
                    cases this
                have hrt : Removable floor t u := by
                  refine ⟨hfu, hku, hit, hskip.2, ?_⟩
                  rw [hrem.pending]
                  exact hpu.not_pending
                rw [Ends.discard_iff]
                refine (ih t u ht (hrem.steps.apart hs hapart) hrt ?_).mono fun _ t' h => ?_
                · rw [hmade]
                  show s.graph.values.size + 0 < _
                  omega
                · have hk := (h.1.steps.mono (Nat.zero_le floor) fun x hx => hx).kept ht
                    (Nat.zero_le _)
                  refine ⟨hrem.trans h.1, Nat.lt_of_lt_of_le hfwd hk.forwards, ?_, ?_,
                    fun T hT => h.2.2.2 _ (hrest T hT)⟩
                  · rw [← hk.resolve, hres, hk.resolve]
                  · cases hpv : t'.graph.phi? v with
                    | none => rfl
                    | some q =>
                      have hst := h.1.steps.mono (Nat.zero_le floor) fun x hx => hx
                      rcases hst.phi_origin ht (Nat.zero_le _) hpv with ⟨q₀, hq₀, -⟩ | ⟨hm, -⟩
                      · rw [hgone] at hq₀
                        cases hq₀
                      · cases hm
              · rename_i hcond
                refine ⟨hrem, hfwd, hres, hgone, fun T hT => (hrest T hT).one fun p' hp' _ => ?_⟩
                obtain ⟨x', hx', hb', -, hk'⟩ := Graph.phi?_eq_some.1 hp'
                cases hxt.symm.trans hx'
                exact absurd (by simp [Value.isPhi, Value.isAttached, hb', hk']) hcond
        · intro _ t h
          rw [ends_resolve]
          refine ⟨h.1, h.2.2.1.symm, fun _ => h.2.2.2.1, fun T hT => (h.2.2.2.2 T hT).mono ?_⟩
          exact fun w hw => hw.resolve_right fun hm => hm.2 hm.1
    · have hnone : ∀ p, s.graph.phi? v ≠ some p := by
        intro p hp
        obtain ⟨x', hx', hatt'⟩ := Graph.attached_of_phi? hp
        cases hx.symm.trans hx'
        exact absurd hatt' hatt
      rw [if_neg hatt, ends_resolve]
      refine ⟨.refl s, rfl, ?_, fun T hT => hT.one fun p hp _ => absurd hp (hnone p)⟩
      rintro ⟨p, hp, -⟩
      exact absurd hp (hnone p)

/-- **The removal of a superfluous phi succeeds**, and the answer is what the phi stands for
    then. -/
theorem ends_removeTrivial (scope : VarId → Prop) (hs : Sane closing s)
    (hapart : s.graph.Apart floor) {v : ValueId} (hv : Removable floor s v) :
    Ends (removeTrivial v) s R fun o t =>
      Removes floor scope closing s t ∧ o = t.graph.resolve (.value v) ∧
        (Unfed s v → t.graph.phi? v = none) ∧
        ∀ T : ValueId → Prop, s.Pruned (fun w => w = v ∨ T w) → t.Pruned T := by
  unfold removeTrivial
  rw [Ends.bind_iff, Ends.get_iff]
  exact ends_removeTrivialWithin _ s v hs hapart hv (by omega)

end Track

end BitFlow
