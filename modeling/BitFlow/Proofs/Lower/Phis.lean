import BitFlow.Proofs.Course.Program

/-!
# The phis of a program are needed

Main statement: `Program.two_operands_of_lower` -- no phi that is left in the graph of a program is
superfluous.
-/

namespace BitFlow

/-- A phi that is not superfluous has two different operands beside itself. -/
theorem two_of_soleOperand_eq_none {self undefined : Operand} {ops : List Operand}
    (h : soleOperand self undefined ops = none) :
    ∃ a ∈ ops, ∃ c ∈ ops, a ≠ self ∧ c ≠ self ∧ a ≠ c := by
  unfold soleOperand at h
  split at h
  · cases h
  · rename_i a rest hcons
    have hmem : ∀ c ∈ a :: rest, c ∈ ops ∧ c ≠ self := by
      intro c hc
      rw [← hcons, List.mem_filter] at hc
      exact ⟨hc.1, of_decide_eq_true hc.2⟩
    split at h
    · cases h
    · rename_i hall
      rw [Bool.not_eq_true, List.all_eq_false] at hall
      obtain ⟨c, hc, hne⟩ := hall
      obtain ⟨ha, ha'⟩ := hmem a List.mem_cons_self
      obtain ⟨hc, hc'⟩ := hmem c (List.mem_cons_of_mem _ hc)
      exact ⟨a, ha, c, hc, ha', hc', fun e => hne (decide_eq_true e.symm)⟩

theorem two_le_length_of_ne {ops : List Operand} {a c : Operand} (ha : a ∈ ops) (hc : c ∈ ops)
    (hne : a ≠ c) : 2 ≤ ops.length := by
  match ops with
  | [] => cases ha
  | [o] => exact absurd ((List.mem_singleton.1 ha).trans (List.mem_singleton.1 hc).symm) hne
  | _ :: _ :: ops => exact Nat.le_add_left 2 ops.length

theorem Tracked.Trim.start (p : Program) (s : Settings) : (Lowering.start p s).tracked.Trim :=
  fun _ _ h => by cases h

/-- The graph that was lowered, before the note where the program ends: it is finished, and its phis
    are needed. -/
theorem Program.finished_of_lower {p : Program} {s : Settings} {r : Lowered}
    (h : p.lower s = .ok r) : ∃ (g : Graph) (b : BlockId), r.graph = { g with exit := some b } ∧
      g.Complete ∧ ∀ {v q}, g.phi? v = some q →
        soleOperand (.value v) (.undef q.ty) q.operands = none := by
  obtain ⟨b, l, run, rfl⟩ := run_of_lower h
  obtain ⟨p₁, l₁, p₂, l₂, hmade, rfl⟩ :=
    Ends.of_ok (Lower.ends_program (T := False) .zero s False.elim False.elim) run
  obtain ⟨t, hm, ht⟩ := Lower.moves_program (.start p s) run
  have htrim := hm.trim (.start p s) (.start p s)
  have hidle := hm.idle (.start p s)
  refine ⟨l₂.bench.graph, b, rfl, hmade.complete, fun {v q} hq => ?_⟩
  -- both accounts of the run speak of the same graph and tables
  have hgraph : { l₂.bench.graph with exit := some b } = { t.graph with exit := some b } :=
    congrArg Tracked.graph ht
  have htables : l₂.bench.reaching = t.reaching := congrArg Tracked.reaching ht
  have hphi : t.graph.phi? v = some q := by
    rw [← hq]
    exact (congrArg (Graph.phi? · v) hgraph).symm
  refine htrim v q hphi ?_ (fun c x hmem => ?_) id
  · rw [hidle.filling]
    exact List.not_mem_nil
  · rw [← htables] at hmem
    rw [show l₂.bench.reaching.pending.image c = [] from
      hmade.ends.built.pending_eq_nil hmade.closed c] at hmem
    cases hmem

/-- **No superfluous phi is left**: every attached phi has two different operands beside itself, so
    the test for superfluous phis rejects it, and its block has two predecessors at least. -/
theorem Program.two_operands_of_lower {p : Program} {s : Settings} {r : Lowered}
    (h : p.lower s = .ok r) {v : ValueId} {q : OwnedPhi} (hq : r.graph.phi? v = some q) :
    (∃ a ∈ q.operands, ∃ c ∈ q.operands, a ≠ .value v ∧ c ≠ .value v ∧ a ≠ c) ∧
      r.graph.trivialReplacement v = .ok none ∧ 2 ≤ (r.graph.preds q.block).length := by
  obtain ⟨g, b, hg, hcomplete, hneeded⟩ := finished_of_lower h
  have hq' : g.phi? v = some q := by
    rw [hg] at hq
    exact hq
  have hsole := hneeded hq'
  obtain ⟨a, ha, c, hc, hav, hcv, hac⟩ := two_of_soleOperand_eq_none hsole
  have hsources := hcomplete.phis hq'
  have hlength : q.operands.length = (g.preds q.block).length := by
    rw [← hsources]
    unfold OwnedPhi.operands OwnedPhi.sources
    rw [List.length_map, List.length_map]
  refine ⟨⟨a, ha, c, hc, hav, hcv, hac⟩, ?_, ?_⟩
  · rw [hg]
    refine (Track.trivialReplacement_eq hcomplete.steady hq').trans ?_
    rw [hsole]
    split <;> rfl
  · rw [hg]
    show 2 ≤ (g.preds q.block).length
    rw [← hlength]
    exact two_le_length_of_ne ha hc hac

/-- The phi of `doubling` has the datum that was read and its double as operands. -/
theorem Program.two_operands_of_lower_doubling :
    ∃ r q, doubling.lower Preset.fast.settings = .ok r ∧ r.graph.phi? ⟨1⟩ = some q ∧
      r.graph.trivialReplacement ⟨1⟩ = .ok none ∧ 2 ≤ (r.graph.preds q.block).length := by
  obtain ⟨r, hr, hphi⟩ := lower_doubling
  obtain ⟨q, hq⟩ := Option.isSome_iff_exists.1 hphi
  exact ⟨r, q, hr, hq, (two_operands_of_lower hr hq).2⟩

end BitFlow
