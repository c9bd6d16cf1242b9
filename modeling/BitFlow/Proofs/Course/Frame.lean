import BitFlow.Proofs.Course.Program

/-!
# Operands do not go stale

Neither a read nor the lowering of an expression touches what is there (`Track.above_read`,
`Build.outgrows_lowerExpr`), whether it comes to an answer or to a fault. So an operand that is held
while an expression is lowered is still attached afterwards, and need not be looked up again.

Main statement: `Program.operands_held` -- in every state in which a lowering reads or lowers an
expression.
-/

namespace BitFlow

/-- **The states in which a lowering reads variables**: between two operations, and, inside a read,
    between two of its steps. -/
inductive Program.Visits (p : Program) (s : Settings) : Tracked → Prop where
  | between {t : Tracked} (h : p.Meets s t) : Visits p s t
  | inside {t u : Tracked} {new : Option NewPhi} (h : Visits p s t)
      (step : Step 0 (fun _ => True) none t new u) : Visits p s u

namespace Program

variable {p : Program} {s : Settings} {t : Tracked}

theorem Meets.idle (h : p.Meets s t) : Idle t := h.moves.idle (.start p s)

theorem Visits.sane (h : p.Visits s t) : Sane none t := by
  induction h with
  | between h => exact h.idle.sane
  | inside _ step ih => exact ih.step step

/-- **Operands never go stale.** Whatever a read or the lowering of an expression comes to, all that
    was there before is held, and the operand that it gives is attached. So an operand that is held
    while another expression is lowered is still attached when that is done. -/
theorem operands_held (p : Program) (s : Settings) :
    (∀ t, p.Visits s t → ∀ x b, t.graph.Holds (after (Track.read x b) t).graph ∧
      ∀ o u, (Track.read x b).run t = .ok o u → u.graph.Anchors o) ∧
    ∀ k : Bench, p.Meets s k.tracked → ∀ e,
      k.graph.Holds (after (Build.lowerExpr e) k).graph ∧
      ∀ o k', (Build.lowerExpr e).run k = .ok o k' →
        k'.graph.Anchors o ∧ ∀ e', (after (Build.lowerExpr e') k').graph.Anchors o := by
  have hlower : ∀ {k : Bench}, Idle k.tracked → ∀ e,
      k.graph.Holds (after (Build.lowerExpr e) k).graph := fun {k} hk e =>
    (after_iff (Build.lowerExpr e) k fun t => k.graph.Holds t.graph).2
      (.holds Bench.graph hk.sane.steady fun _ => Build.outgrows_lowerExpr e)
  refine ⟨fun t ht x b => ⟨?_, fun o u run => ?_⟩, fun k hk e => ⟨?_, fun o k' run => ?_⟩⟩
  · refine (after_iff (Track.read x b) t fun u => t.graph.Holds u.graph).2 ?_
    exact .holds Tracked.graph ht.sane.steady fun _ => Track.above_read x b
  · have hd := Track.didRead_of_run ht.sane run
    exact (hd.sane ht.sane).anchors_reached hd.answer
  · exact hlower hk.idle e
  · have hanchors := (Build.anchors_lowerExpr p e hk.idle).of_ok run
    have hretains := (Build.retains_lowerExpr p hk.idle e).of_ok run
    exact ⟨hanchors, fun e' => (hlower hretains.idle e').anchors hanchors⟩

/-- At the end of the lowering of `doubling`, whose loop has a phi, the datum is read once more, and
    the sum of the datum with itself is lowered. -/
theorem operands_held_doubling : ∃ k : Bench, doubling.Meets Preset.fast.settings k.tracked ∧
    (k.graph.phi? ⟨1⟩).isSome = true ∧
    k.graph.Holds (after (Track.read ⟨0⟩ k.graph.entry) k.tracked).graph ∧
    k.graph.Holds (after (Build.lowerExpr (.binary .add (.var ⟨0⟩) (.var ⟨0⟩))) k).graph := by
  obtain ⟨r, hr, hphi⟩ := lower_doubling
  obtain ⟨t, ht, hgraph⟩ := meets_of_lower hr
  let k : Bench := ⟨t.graph, t.reaching, ⟨t.graph.entry, none⟩, 64⟩
  have hk : doubling.Meets Preset.fast.settings k.tracked := ht
  have hheld := operands_held doubling Preset.fast.settings
  refine ⟨k, hk, ?_, (hheld.1 k.tracked (.between hk) _ _).1, (hheld.2 k hk _).1⟩
  show (t.graph.phi? ⟨1⟩).isSome = true
  rw [hgraph]
  exact hphi

end Program

end BitFlow
