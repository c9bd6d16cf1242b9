import BitFlow.Proofs.Graph.Walk
import BitFlow.Proofs.Lower.Finish
import BitFlow.Proofs.Lower.Rooted

/-!
# The kind of a block is whether control can reach it

A block gets its kind when it is made, from the block that it continues, before anything leads to
it. In the end this is what a walk along the edges finds: edges join live blocks only, so control
reaches no dead block, and each live block but the entry has a predecessor, from which control
comes.

Main statement: `Program.kindIsReach_lower`.
-/

namespace BitFlow

/-- **Kinds tell where control can be**: the live blocks are those that a walk from the entry
    finds, edges neither leave nor enter the others, and all blocks are sealed. -/
structure Graph.KindIsReach (g : Graph) : Prop where
  live : ∀ b, b ∈ g.reachable ↔ ∃ y, g.block? b = some y ∧ y.kind = .live
  dead : ∀ {b y}, g.block? b = some y → y.kind = .unreachable → y.preds = [] ∧ y.branches = []
  preds : ∀ {b y q}, g.block? b = some y → q ∈ y.preds → ∃ z, g.block? q = some z ∧ z.kind = .live
  closed : ∀ {b y}, g.block? b = some y → y.isSealed = true

namespace Built

variable {p : Plan} {s : Tracked} {b q : BlockId} {y : Block}

theorem live_iff (h : Built p s) (hb : s.graph.block? b = some y) :
    y.kind = .live ↔ p.dead b = false := by
  rw [← (h.block hb).1, Block.isUnreachable]
  cases y.kind <;> decide

/-- What control can reach is live: it is the entry, or an edge leads there. -/
theorem live_of_reached (h : Built p s) (hentry : p.dead Plan.entry = false) (hb : p.Reached b) :
    p.dead b = false := by
  obtain ⟨π, hπ⟩ := hb
  cases hπ with
  | entry => exact hentry
  | step _ he => exact (h.wired.source he).2.2

/-- Control can reach what has footing: control starts there, or it comes from where edges start. -/
theorem reached_of_footed (h : Built p s) (hb : s.graph.Footed b) : p.Reached b := by
  rcases hb with rfl | hpreds
  · rw [h.entry]
    exact p.reached_entry
  · obtain ⟨q, hq⟩ := List.exists_mem_of_ne_nil _ hpreds
    have he := h.mem_preds.1 hq
    exact (h.wired.source he).1.step he

/-- **A graph built to a plan tells by its kinds where control can be** if all its live blocks have
    footing and all blocks are sealed. -/
theorem kindIsReach (h : Built p s) (hentry : p.dead Plan.entry = false)
    (hrooted : s.graph.Rooted fun _ => False)
    (hclosed : ∀ {c : BlockId}, c.index < p.count → p.closed c = true) :
    s.graph.KindIsReach where
  live := fun b => by
    rw [h.orderly.charted.mem_reachable_iff, h.reached_iff]
    constructor
    · intro hb
      obtain ⟨y, hy⟩ := h.known (h.reached_known hb)
      exact ⟨y, hy, (h.live_iff hy).2 (h.live_of_reached hentry hb)⟩
    · rintro ⟨y, hy, hlive⟩
      have hkind : s.graph.kind? b = some .live := by rw [Graph.kind?_of_block? hy, hlive]
      exact h.reached_of_footed ((hrooted.footed hkind).resolve_right id)
  dead := fun {b y} hy hk => by
    have hdead : p.dead b ≠ false := fun e => by
      rw [(h.live_iff hy).2 e] at hk
      cases hk
    constructor
    · rw [← Graph.preds_of_block? hy]
      refine List.eq_nil_iff_forall_not_mem.2 fun q hq => ?_
      exact hdead (h.wired.source (h.mem_preds.1 hq)).2.2
    · rw [← Graph.branches_of_block? hy]
      refine List.eq_nil_iff_forall_not_mem.2 fun br hbr => ?_
      exact hdead (h.wired.source (h.edge_iff.1 ⟨br, hbr, rfl⟩)).2.1
  preds := fun {b y q} hy hq => by
    rw [← Graph.preds_of_block? hy] at hq
    have he := h.mem_preds.1 hq
    obtain ⟨z, hz⟩ := h.known (h.edge_known he).1
    exact ⟨z, hz, (h.live_iff hz).2 (h.wired.source he).2.1⟩
  closed := fun hy => (h.block hy).2.1.trans (hclosed (h.index_lt hy))

end Built

/-- **In the graph of a program the kind of a block is whether control can reach it.** -/
theorem Program.kindIsReach_lower {p : Program} {s : Settings} {r : Lowered}
    (h : p.lower s = .ok r) : r.graph.KindIsReach := by
  obtain ⟨b, l, run, rfl⟩ := run_of_lower h
  have hrooted := Lower.rooted_program run
  obtain ⟨p₁, l₁, p₂, l₂, hmade, rfl⟩ :=
    Ends.of_ok (Lower.ends_program (T := False) .zero s False.elim False.elim) run
  have hentry : p₂.dead Plan.entry = false := hmade.spans.dead.trans hmade.live
  have hk := hmade.ends.built.kindIsReach hentry (hrooted.of_outline rfl) hmade.closed
  refine ⟨fun c => ?_, hk.dead, hk.preds, hk.closed⟩
  -- the note where the program ends changes no block
  show c ∈ ({ l₂.bench.graph with exit := some b } : Graph).reachable ↔ _
  rw [Graph.reachable_setExit]
  exact hk.live c

/-- All blocks of `doubling` that are live can be reached. -/
theorem Program.kindIsReach_lower_doubling :
    ∃ r, doubling.lower Preset.fast.settings = .ok r ∧ r.graph.KindIsReach := by
  obtain ⟨r, hr, -⟩ := lower_doubling
  exact ⟨r, hr, kindIsReach_lower hr⟩

end BitFlow
