import BitFlow.Proofs.Course.Definitions
import BitFlow.Proofs.Lower.Enduring
import BitFlow.Proofs.Reaching.Tally

/-!
# The counts of a lowering

Reads and seals keep the tally of phis, wherever a fault may cut them short, and nothing else that a
lowering does makes or removes a phi. So the counts are right in whatever state a lowering is, and
in whatever state it ends.

Main statements: `Move.tallied` -- every move keeps the tally; `Program.phis_counted` -- the counts
are those of the phis of the graph.
-/

namespace BitFlow

open Tracked (Tallied)

variable {p : Program} {s : Settings} {t u : Tracked}

/-! ## 1. The tally lasts -/

/-- Nothing is counted at the start. -/
theorem Tracked.Tallied.start (p : Program) (s : Settings) :
    (Lowering.start p s).tracked.Tallied 0 fun _ _ => False where
  created := rfl
  removed := rfl
  completed := Nat.le_refl _
  known hq := nomatch hq
  nodup _ := List.nodup_nil
  waits := False.elim

/-- **The tally lasts through a whole lowering.** -/
theorem Lower.enduring_tallied : Enduring Value.role (Tallied 0 fun _ _ => False) where
  toSurveys := Tracked.surveys_tallied
  read x b := endures_tracking (Track.tallied_read x b)
  sealBlock b := endures_tracking (Track.tallied_sealBlock b)
  recorded hs _ _ _ := hs.onTables rfl rfl
  christened hs x o := hs.christened x o

/-- **Every move keeps the tally.** -/
theorem Move.tallied (hm : Move p t u) (h : t.Tallied 0 fun _ _ => False) :
    u.Tallied 0 fun _ _ => False := by
  cases hm with
  | read run => exact ((Track.tallied_read _ _ t h).of_ok run).1
  | sealed run => exact ((Track.tallied_sealBlock _ t h).of_ok run).1
  | block => exact h.onGraph rfl
  | edge => exact h.onGraph (Graph.survey_addUses _ _ _)
  | instr _ _ _ place origin => exact h.withInstr _ place _ origin _
  | write => exact h.onTables rfl rfl
  | kill => exact h.onGraph rfl
  | alike ha counts =>
    have hroles : u.graph.roles = t.graph.roles := ha.graph.survey fun x y hblock hkind => by
      unfold Value.role Value.isPhi Value.isAttached
      rw [hblock, hkind]
    exact (h.onGraph hroles).onTables counts ha.pending

theorem Moves.tallied (hm : Moves p t u) (h : t.Tallied 0 fun _ _ => False) :
    u.Tallied 0 fun _ _ => False := by
  induction hm with
  | refl => exact h
  | tail _ hmove ih => exact hmove.tallied ih

/-! ## 2. Programs -/

namespace Program

/-- **The counts of phis are exact**, between any two operations of a lowering and in the state that
    it leaves, with an answer or with a fault: as many phis were made as the graph has, and as many
    were removed as are detached. So what was made exceeds what was removed by the attached phis.
    Those that were filled by sealing and those that wait are no more than were made. -/
theorem phis_counted (ht : p.Meets s t ∨ t = (p.reached s).tracked) :
    t.reaching.stats.created = t.graph.phis.length ∧
    t.reaching.stats.removed = t.graph.detachedPhis.length ∧
    t.reaching.stats.removed ≤ t.reaching.stats.created ∧
    t.reaching.stats.live = t.graph.attachedPhis.length ∧
    t.reaching.stats.completed + t.reaching.pending.size ≤ t.reaching.stats.created := by
  have h : t.Tallied 0 fun _ _ => False := by
    rcases ht with hmeets | rfl
    · exact hmeets.moves.tallied (.start p s)
    · exact Lower.enduring_tallied.reached (.start p s)
  have hsum := t.graph.length_attachedPhis_add_detachedPhis
  rw [← h.created, ← h.removed] at hsum
  refine ⟨h.created, h.removed, hsum ▸ Nat.le_add_left _ _, ?_, h.completed⟩
  unfold Stats.live
  rw [← hsum, Nat.add_sub_cancel]

/-- Two loops that read a datum, the second of which cannot be lowered: it uses a variable that is
    not declared. -/
def faltering : Program :=
  { echoing with
    body := echoing.body ++
      [.whileLoop (.compare .lt (.var ⟨0⟩) (.lit (.ofNat 50 (.unsigned 8)))) [.read ⟨0⟩ ⟨1⟩]] }

/-- When the lowering of `faltering` stops, the phi of the first loop is filled and removed, and
    that of the second one waits. -/
theorem phis_counted_faltering :
    (∃ e, faltering.lower Preset.fast.settings = .error e) ∧
    ∃ t, t = (faltering.reached Preset.fast.settings).tracked ∧
      t.reaching.stats = ⟨2, 1, 1⟩ ∧ t.reaching.pending.size = 1 ∧
      t.graph.phis.length = 2 ∧ t.graph.detachedPhis.length = 1 ∧ t.graph.attachedPhis.length = 1 := by
  have hfault : (faltering.lower Preset.fast.settings).toOption.isNone = true := by decide +kernel
  have hstats : (faltering.reached Preset.fast.settings).tracked.reaching.stats = ⟨2, 1, 1⟩ := by
    decide +kernel
  have hsize : (faltering.reached Preset.fast.settings).tracked.reaching.pending.size = 1 := by
    decide +kernel
  obtain ⟨hcreated, hremoved, -, hlive, -⟩ :=
    phis_counted (p := faltering) (s := Preset.fast.settings) (.inr rfl)
  rw [hstats] at hcreated hremoved hlive
  refine ⟨?_, _, rfl, hstats, hsize, hcreated.symm, hremoved.symm, hlive.symm⟩
  cases h : faltering.lower Preset.fast.settings with
  | error e => exact ⟨e, rfl⟩
  | ok r =>
    rw [h] at hfault
    cases hfault

end Program

end BitFlow
