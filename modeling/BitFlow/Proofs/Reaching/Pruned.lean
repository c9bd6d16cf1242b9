import BitFlow.Proofs.Reaching.Kept

/-!
# Phis that are needed

A phi is superfluous when all its operands other than itself are one and the same. `Pruned T` says
that no phi outside `T` is, those apart that have not got all their operands yet. What keeps it is
said here for each of the changes by which variables are read and blocks are sealed.
-/

namespace BitFlow

namespace Tracked

/-- **Every phi outside `T` is needed**: one that is neither being filled nor waits has two
    different operands beside itself. -/
def Pruned (T : ValueId → Prop) (s : Tracked) : Prop :=
  ∀ v p, s.graph.phi? v = some p → v ∉ s.reaching.filling →
    (∀ b x, (x, v) ∉ s.reaching.pending.image b) → ¬ T v →
      soleOperand (.value v) (.undef p.ty) p.operands = none

/-- Every phi that has its operands is needed. -/
abbrev Trim (s : Tracked) : Prop := s.Pruned fun _ => False

variable {s t : Tracked} {T : ValueId → Prop}

theorem Pruned.mono {T' : ValueId → Prop} (h : s.Pruned T) (hT : ∀ v, T v → T' v) : s.Pruned T' :=
  fun v p hp hf hw hn => h v p hp hf hw fun hv => hn (hT _ hv)

/-- A change that leaves the phis alone, and those who wait or are being filled. -/
theorem Pruned.congr (h : s.Pruned T) (hphi : ∀ v, t.graph.phi? v = s.graph.phi? v)
    (hf : t.reaching.filling = s.reaching.filling)
    (hw : t.reaching.pending = s.reaching.pending) : t.Pruned T := by
  intro v p hp hfv hwv hn
  rw [hphi] at hp
  rw [hf] at hfv
  rw [hw] at hwv
  exact h v p hp hfv hwv hn

theorem Pruned.alike (h : s.Pruned T) (ha : s.Alike t) : t.Pruned T :=
  h.congr ha.graph.phi? ha.filling ha.pending

/-- One phi more is known to be needed, or is none. -/
theorem Pruned.one {v : ValueId} (h : s.Pruned fun w => w = v ∨ T w)
    (hv : ∀ p, s.graph.phi? v = some p → v ∉ s.reaching.filling →
      soleOperand (.value v) (.undef p.ty) p.operands = none) : s.Pruned T := by
  intro w p hp hf hw hn
  by_cases e : w = v
  · subst e
    exact hv p hp hf
  · exact h w p hp hf hw fun hc => hc.elim e hn

/-- Once a phi is retired, its former users are to be looked at again. -/
theorem Pruned.retired {v : ValueId} {o : Operand} {g : Graph}
    (h : s.Pruned fun w => w = v ∨ T w) (hs : s.graph.Steady) (hg : Graph.Retired v o s.graph g) :
    Pruned (fun w => T w ∨ User.value w ∈ s.graph.users v) ⟨g, s.reaching.reroute v o⟩ := by
  obtain ⟨defs, holders, hr⟩ := s.reaching.reroute_eq v o
  intro w p hp hf hw hn
  rw [not_or] at hn
  change g.phi? w = some p at hp
  change w ∉ (s.reaching.reroute v o).filling at hf
  change ∀ b x, (x, w) ∉ (s.reaching.reroute v o).pending.image b at hw
  rw [hr] at hf hw
  rw [hg.phi?] at hp
  split at hp
  · cases hp
  · rename_i hne
    obtain ⟨p₀, hp₀, rfl⟩ := Option.map_eq_some_iff.1 hp
    -- it did not refer to the retired phi, so it is as it was
    have hno : Operand.value v ∉ p₀.operands := by
      intro hm
      exact hn.2 ((hs.orderly.mem_users v _).2 (Graph.refers_value_iff.2 (.inl ⟨p₀, hp₀, hm⟩)))
    have hsame : p₀.operands.map (Operand.replace (.value v) o) = p₀.operands := by
      refine (List.map_congr_left fun a ha => ?_).trans (List.map_id _)
      exact Operand.replace_of_ne fun e => hno (e ▸ ha)
    rw [OwnedPhi.operands_replace, OwnedPhi.ty_replace, hsame]
    exact h w p₀ hp₀ hf hw fun hc => hc.elim hne hn.1

/-- A new phi that is being filled or waits is not asked for anything. -/
theorem Pruned.withPhi (h : s.Pruned T) {b : BlockId} {x : VarId} {ty : Ty}
    (hg : t.graph = s.graph.withPhi b x ty)
    (hnew : s.graph.nextValue ∈ t.reaching.filling ∨
      ∃ c z, (z, s.graph.nextValue) ∈ t.reaching.pending.image c)
    (hf : ∀ v ∈ s.reaching.filling, v ∈ t.reaching.filling)
    (hw : ∀ c z v, (z, v) ∈ s.reaching.pending.image c → (z, v) ∈ t.reaching.pending.image c) :
    t.Pruned T := by
  intro v p hp hfv hwv hn
  rw [hg, Graph.phi?_withPhi] at hp
  split at hp
  · rename_i e
    subst e
    rcases hnew with hc | ⟨c, z, hc⟩
    · exact absurd hc hfv
    · exact absurd hc (hwv c z)
  · exact h v p hp (fun hc => hfv (hf v hc)) (fun c z hc => hwv c z (hw c z v hc)) hn

/-- A waiting phi is not asked for anything while it is being filled. -/
theorem Pruned.started (h : s.Pruned T) (b : BlockId) (x : VarId) (v : ValueId) :
    (s.started b x v).Pruned T := by
  intro w p hp hf hw hn
  have hne : w ≠ v := fun e => hf (e ▸ List.mem_cons_self)
  refine h w p hp (fun hc => hf (List.mem_cons_of_mem _ hc)) (fun c z hc => ?_) hn
  refine hw c z ((Multimap.mem_image_remove _ _ _ _ _).2 ⟨hc, fun e => ?_⟩)
  exact hne (Prod.mk.inj e.2).2

/-- A phi that is being filled may get an operand. -/
theorem Pruned.pushed (h : s.Pruned T) {v : ValueId} {p : OwnedPhi} (hp : s.graph.phi? v = some p)
    (hf : v ∈ s.reaching.filling) (o : Operand) (q : BlockId) : (s.pushed v p o q).Pruned T := by
  intro w p' hp' hfw hw hn
  have hne : w ≠ v := fun e => hfw (e ▸ hf)
  rw [show (s.pushed v p o q).graph.phi? w = _ from Graph.phi?_withIncoming hp o q w,
    if_neg hne] at hp'
  exact h w p' hp' hfw hw hn

/-- A phi that has got its operands is to be looked at. -/
theorem Pruned.filled (h : s.Pruned T) (v : ValueId) :
    (s.filled v).Pruned fun w => w = v ∨ T w := by
  intro w p hp hf hw hn
  rw [not_or] at hn
  refine h w p hp (fun hc => hf ?_) hw hn.2
  exact List.mem_filter.2 ⟨hc, by simpa using hn.1⟩

end Tracked

end BitFlow
