import BitFlow.Proofs.Graph.Check
import BitFlow.Proofs.Lower.Program

/-!
# The check of a finished lowering

When a program has been lowered no loop is open, no phi waits and the graph passes the structural
check. The lowering itself fails for reasons of the program alone.

Main statement: `Program.finish_of_run`.
-/

namespace BitFlow

/-! ## 1. The finished graph -/

/-- Where all blocks are sealed no phi waits. -/
theorem Built.pending_eq_nil {p : Plan} {t : Tracked} (h : Built p t)
    (hclosed : ∀ {c : BlockId}, c.index < p.count → p.closed c = true) (b : BlockId) :
    t.reaching.pending.image b = [] := by
  refine List.eq_nil_iff_forall_not_mem.2 fun ⟨x, v⟩ hm => ?_
  obtain ⟨⟨ty, hphi⟩, -, hopen, -⟩ := h.drawn.sane.pending hm
  obtain ⟨z, hz, hzb, -, -⟩ := Graph.phi?_eq_some.1 hphi
  obtain ⟨y, hy⟩ := h.orderly.owner_known hz hzb
  have hsealed : y.isSealed = true := (h.block hy).2.1.trans (hclosed (h.index_lt hy))
  rw [Graph.isSealed_of_block? hy, hsealed] at hopen
  cases hopen

/-- **A graph built to a plan whose blocks are all sealed is finished.** -/
theorem Built.complete {p : Plan} {t : Tracked} (h : Built p t)
    (hclosed : ∀ {c : BlockId}, c.index < p.count → p.closed c = true) : t.graph.Complete where
  steady := h.steady
  anchored := h.anchored
  closed := fun hy => (h.block hy).2.1.trans (hclosed (h.index_lt hy))
  phis := fun {v q} hq => by
    refine (h.drawn.sane.complete hq ?_ fun b x hm => ?_).1
    · rw [h.drawn.idle]
      exact List.not_mem_nil
    · rw [h.pending_eq_nil hclosed] at hm
      cases hm

namespace Lower

variable {w : World} {T : Prop} {prog : Program} {b : BlockId} {p₁ p₂ : Plan} {l₁ l₂ : Lowering}

theorem ProgramMade.complete (h : ProgramMade w T prog b p₁ l₁ p₂ l₂) :
    l₂.bench.graph.Complete := h.ends.built.complete h.closed

/-- The check of a lowered program finds nothing. -/
theorem ProgramMade.finish (h : ProgramMade w T prog b p₁ l₁ p₂ l₂) :
    (noteExit l₂ b).finish = .ok () := by
  have hkeys : l₂.bench.reaching.pending.keys = [] :=
    h.ends.built.drawn.sane.tight.keys_eq_nil (h.ends.built.pending_eq_nil h.closed)
  have hnone : l₂.bench.reaching.hasPending = false := by
    unfold Reaching.hasPending
    rw [hkeys]
    rfl
  unfold Lowering.finish
  rw [show (noteExit l₂ b).loops = [] from h.loops]
  show (if l₂.bench.reaching.hasPending = true then _ else l₂.bench.graph.check) = _
  rw [hnone]
  exact h.complete.check

end Lower

/-! ## 2. Programs -/

theorem Program.lower_of_error {p : Program} {s : Settings} {e : Fault} {l : Lowering}
    (h : (Lower.program p).run (.start p s) = .error e l) : p.lower s = .error e := by
  unfold lower
  rw [h]

theorem Program.lower_of_ok {p : Program} {s : Settings} {b : BlockId} {l : Lowering}
    (h : (Lower.program p).run (.start p s) = .ok b l) (hf : l.finish = .ok ()) :
    p.lower s = .ok l.result := by
  unfold lower
  rw [h]
  cases hv : s.verify with
  | false => rfl
  | true => exact Graph.bind_eq_ok_iff.2 ⟨(), hf, rfl⟩

/-- **The check at the end of a lowering never fires**: what has been lowered passes it, a lowering
    that fails does so with a fault of the program, and so the check makes no difference. -/
theorem Program.finish_of_run (p : Program) (s : Settings) :
    (∀ b l, (Lower.program p).run (.start p s) = .ok b l → l.finish = .ok ()) ∧
      (∀ e l, (Lower.program p).run (.start p s) = .error e l →
        (∀ rule, e ≠ .violated rule) ∧ (∀ c, e ≠ .unknownBlock c) ∧ e ≠ .endless) ∧
      p.lower { s with verify := true } = p.lower { s with verify := false } := by
  -- which world the program runs in does not matter here
  have hends : Ends (Lower.program p) (.start p s) Refused fun b l => ∃ p₁ l₁ p₂ l₂,
      Lower.ProgramMade .zero False p b p₁ l₁ p₂ l₂ ∧ l = Lower.noteExit l₂ b :=
    Lower.ends_program .zero s False.elim False.elim
  have hok : ∀ b l, (Lower.program p).run (.start p s) = .ok b l → l.finish = .ok () := by
    intro b l run
    obtain ⟨p₁, l₁, p₂, l₂, h, rfl⟩ := Ends.of_ok hends run
    exact h.finish
  refine ⟨hok, fun e l run => ?_, ?_⟩
  · have hrefused : Refused e := Ends.of_error hends run
    refine ⟨fun rule he => ?_, fun c he => ?_, fun he => ?_⟩ <;>
    · rw [he] at hrefused
      cases hrefused
  · -- both settings lead to the same run
    cases hr : (Lower.program p).run (.start p s) with
    | error e l =>
      have herror : ∀ v, p.lower { s with verify := v } = .error e := fun v => lower_of_error hr
      rw [herror true, herror false]
    | ok b l =>
      have hresult : ∀ v, p.lower { s with verify := v } = .ok l.result :=
        fun v => lower_of_ok hr (hok b l hr)
      rw [hresult true, hresult false]

/-- `doubling` is lowered with the check at the end as well. -/
theorem Program.finish_of_run_doubling :
    ∃ r, doubling.lower { Preset.fast.settings with verify := true } = .ok r := by
  obtain ⟨r, hr, -⟩ := lower_doubling
  exact ⟨r, (finish_of_run doubling Preset.fast.settings).2.2.trans hr⟩

end BitFlow
