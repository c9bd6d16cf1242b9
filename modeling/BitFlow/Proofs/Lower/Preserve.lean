import BitFlow.Proofs.Lower.Finish
import BitFlow.Proofs.Play.Station

/-!
# Lowering preserves what a program does

A play is deterministic: of two paths that control goes along one carries on the other. So the play
of the plan of a lowered program does at the ports what the program does, no more and no less, and
the graph runs as the play.

Main statement: `Program.sameEvents_lower`.
-/

namespace BitFlow

/-! ## 1. Plays are deterministic -/

namespace Play

variable {w : World} {vars : List Variable} {P : Play w vars} {start π π' : List BlockId}
  {c : BlockId}

theorem Goes.eq_of_length (h : P.Goes start π) (h' : P.Goes start π')
    (hl : π.length = π'.length) : π = π' := by
  induction h generalizing π' with
  | refl =>
    cases h' with
    | refl => rfl
    | step h' _ =>
      have := h'.length
      rw [List.length_cons] at hl
      omega
  | @step π c h hn ih =>
    cases h' with
    | refl =>
      have := h.length
      rw [List.length_cons] at hl
      omega
    | step h' hn' =>
      obtain rfl := ih h' (Nat.succ.inj hl)
      rw [Option.some.inj (hn.symm.trans hn')]

/-- **Of two paths from one start the longer carries on the shorter.** -/
theorem Goes.linear (h : P.Goes start π) (h' : P.Goes start π') (hl : π.length ≤ π'.length) :
    P.Goes π π' := by
  induction h' with
  | refl =>
    rw [h.eq_of_length .refl (Nat.le_antisymm hl h.length)]
    exact .refl
  | @step π' c h' hn ih =>
    rcases Nat.lt_or_eq_of_le hl with hlt | heq
    · exact (ih (Nat.le_of_lt_succ hlt)).step hn
    · rw [h.eq_of_length (h'.step hn) heq]
      exact .refl

/-- From a path at whose end control does not go on it goes nowhere. -/
theorem Goes.eq_of_over (h : P.Goes π π') (hover : P.next π = none) : π' = π := by
  induction h with
  | refl => rfl
  | step _ hn ih =>
    rw [ih, hover] at hn
    cases hn

/-- The step before. -/
theorem Goes.back (h : P.Goes start (c :: π)) (hl : start.length ≤ π.length) : P.Goes start π := by
  cases h with
  | refl =>
    rw [List.length_cons] at hl
    omega
  | step h _ => exact h

/-- What was done at the ports stays done. -/
theorem Goes.hist (h : P.Goes start π) (hs : P.Path start) : P.hist start <+: P.hist π := by
  induction h with
  | refl => exact List.prefix_rfl
  | @step π c h hn ih =>
    rw [P.hist_block ((h.step hn).path hs)]
    exact ih.trans (List.prefix_append _ _)

end Play

/-! ## 2. The play of a program -/

namespace Lower.ProgramMade

variable {w : World} {prog : Program} {b : BlockId} {p₁ p₂ : Plan} {l₁ l₂ : Lowering}
  {t : List Event}

theorem completes (h : ProgramMade w True prog b p₁ l₁ p₂ l₂) :
    (h.ends.built.play w).Completes p₂ l₂ where
  models := h.ends.built.models_play w
  roles := id
  vars := rfl
  live := h.spans.dead.trans h.live

/-- A program starts in the entry. -/
theorem at_start (h : ProgramMade w True prog b p₁ l₁ p₂ l₂) :
    (h.ends.built.play w).At p₁ Plan.entry [Plan.entry] (prog.start w) := by
  refine Play.Enters.at ⟨.entry, ?_, rfl⟩ h.blank.code h.blank.writes
  funext x
  show w.undef (declaredType l₂.vars x) = _
  rw [h.vars]
  rfl

/-- At the end of the last block the play is over. -/
theorem play_over (h : ProgramMade w True prog b p₁ l₁ p₂ l₂) {π : List BlockId} {μ : Memory}
    (hat : (h.ends.built.play w).At p₂ b π μ) :
    (h.ends.built.play w).next π = none ∧ (h.ends.built.play w).hist π = μ.trace := by
  cases hat with
  | mk path store trace =>
    refine ⟨?_, ((h.ends.built.play w).hist_block path).trans trace⟩
    show ((p₂.jumps b).find? _).map Branch.target = none
    rw [h.ends.free]
    rfl

/-- **The play goes as the program runs**: on and on, or to an end. -/
theorem follows_run (h : ProgramMade w True prog b p₁ l₁ p₂ l₂) (n : Nat) :
    (∃ t, prog.run w n = .pause t ∧ (h.ends.built.play w).Pauses [Plan.entry] n t) ∨
      ∃ turn μ π, prog.run w n = .done turn μ ∧ (h.ends.built.play w).Goes [Plan.entry] π ∧
        (h.ends.built.play w).next π = none ∧ (h.ends.built.play w).hist π = μ.trace := by
  have hfollows := h.follows trivial (h.ends.built.play w) h.completes
    ⟨fun _ _ _ _ => rfl, fun _ _ _ _ => rfl, fun _ _ _ => rfl, fun _ _ _ _ _ => rfl,
      List.prefix_rfl⟩ n h.at_start
  rw [h.outermost] at hfollows
  change Play.Follows _ _ _ n (prog.run w n) at hfollows
  match hrun : prog.run w n with
  | .pause t =>
    rw [hrun] at hfollows
    exact .inl ⟨t, rfl, hfollows⟩
  | .done .onward μ =>
    rw [hrun] at hfollows
    obtain ⟨π, hgo, hat⟩ := hfollows
    exact .inr ⟨_, μ, π, rfl, hgo, h.play_over hat⟩
  -- outside of loops there is no way to leave one
  | .done .leave μ =>
    rw [hrun] at hfollows
    obtain ⟨π, -, c, hc, -⟩ := hfollows
    cases hc
  | .done .again μ =>
    rw [hrun] at hfollows
    obtain ⟨π, -, c, hc, -⟩ := hfollows 0
    cases hc

/-- The program begins with some events if its play does. -/
theorem emits_iff (h : ProgramMade w True prog b p₁ l₁ p₂ l₂) :
    prog.Emits w t ↔ ∃ π, (h.ends.built.play w).Goes [Plan.entry] π ∧
      t <+: (h.ends.built.play w).hist π := by
  constructor
  · rintro ⟨n, ht⟩
    rcases h.follows_run n with ⟨t', hrun, c, π, hgo, hhist, -⟩ | ⟨_, μ, π, hrun, hgo, -, hhist⟩
    · rw [hrun] at ht
      refine ⟨c :: π, hgo, ht.trans ?_⟩
      rw [(h.ends.built.play w).hist_block (hgo.path .entry), hhist]
      exact List.prefix_append _ _
    · rw [hrun] at ht
      exact ⟨π, hgo, hhist ▸ ht⟩
  · rintro ⟨π, hgo, ht⟩
    -- a run with as many rounds as the path has blocks goes at least as far
    refine ⟨π.length, ht.trans ?_⟩
    rcases h.follows_run π.length with ⟨t', hrun, c, ρ, hgo', hhist, hlen⟩ |
      ⟨_, μ, ρ, hrun, hgo', hover, hhist⟩
    · rw [hrun]
      show _ <+: t'
      have hpos := hgo.length
      rw [List.length_singleton] at hpos hlen
      rw [List.length_cons] at hlen
      have hback : (h.ends.built.play w).Goes [Plan.entry] ρ := hgo'.back (by
        rw [List.length_singleton]
        omega)
      rw [← hhist]
      exact (hgo.linear hback (by omega)).hist (hgo.path .entry)
    · rw [hrun]
      show _ <+: μ.trace
      rw [← hhist]
      rcases Nat.le_total π.length ρ.length with hle | hle
      · exact (hgo.linear hgo' hle).hist (hgo.path .entry)
      · rw [(hgo'.linear hgo hle).eq_of_over hover]

/-- The program comes to an end if its play does. -/
theorem halts_iff (h : ProgramMade w True prog b p₁ l₁ p₂ l₂) :
    prog.Halts w t ↔ ∃ π, (h.ends.built.play w).Goes [Plan.entry] π ∧
      (h.ends.built.play w).next π = none ∧ (h.ends.built.play w).hist π = t := by
  constructor
  · rintro ⟨n, turn, μ, hrun, rfl⟩
    rcases h.follows_run n with ⟨t', hrun', -⟩ | ⟨turn', μ', π, hrun', hgo, hover, hhist⟩
    · rw [hrun] at hrun'
      cases hrun'
    · rw [hrun] at hrun'
      cases hrun'
      exact ⟨π, hgo, hover, hhist⟩
  · rintro ⟨π, hgo, hover, rfl⟩
    rcases h.follows_run π.length with ⟨t', hrun, c, ρ, hgo', -, hlen⟩ |
      ⟨turn, μ, ρ, hrun, hgo', hover', hhist⟩
    · -- the play is over at `π` and cannot go further
      rw [List.length_singleton] at hlen
      have heq := (hgo.linear hgo' (by omega)).eq_of_over hover
      rw [heq] at hlen
      omega
    · refine ⟨_, turn, μ, hrun, hhist.symm.trans ?_⟩
      rcases Nat.le_total π.length ρ.length with hle | hle
      · rw [(hgo.linear hgo' hle).eq_of_over hover]
      · rw [(hgo'.linear hgo hle).eq_of_over hover']

end Lower.ProgramMade

/-! ## 3. Programs -/

theorem Program.Strict.declared {p : Program} (h : p.Strict) : Lower.Declared p where
  vars := fun hd => by
    obtain ⟨i, hi, rfl⟩ := List.mem_iff_getElem.1 (mem_of_variableById? hd)
    exact (h.vars i _ (List.getElem?_eq_getElem hi)).2.2
  ports := fun {q port} hq => (h.ports q.index port hq).1

/-- Which block is noted as the last one does not matter for a run. -/
theorem Graph.stationAt_exit (g : Graph) (last : Option BlockId) (w : World) (n : Nat) :
    Graph.stationAt { g with exit := last } w n = g.stationAt w n := by
  induction n with
  | zero => rfl
  | succ n ih =>
    unfold stationAt
    rw [ih]
    rfl

/-- **Lowering preserves what a strictly typed program does**: in every world the program and its
    graph can begin with the same events, and they come to an end with the same events or both do
    not. -/
theorem Program.sameEvents_lower {p : Program} {s : Settings} {r : Lowered} (hp : p.Strict)
    (h : p.lower s = .ok r) (w : World) :
    (∀ t, p.Emits w t ↔ r.graph.Emits w t) ∧ ∀ t, p.Halts w t ↔ r.graph.Halts w t := by
  obtain ⟨b, l, run, rfl⟩ := run_of_lower h
  obtain ⟨p₁, l₁, p₂, l₂, hmade, rfl⟩ := Ends.of_ok
    (Lower.ends_program (T := True) w s (fun _ => hp.declared) fun _ => hp.body) run
  have hrun : ∀ n, (Lower.noteExit l₂ b).result.graph.stationAt w n =
      l₂.bench.graph.stationAt w n := l₂.bench.graph.stationAt_exit (some b) w
  constructor
  · intro t
    rw [hmade.emits_iff, ← hmade.ends.built.emits_iff hmade.complete]
    unfold Graph.Emits
    simp only [hrun]
    rfl
  · intro t
    rw [hmade.halts_iff, ← hmade.ends.built.halts_iff hmade.complete]
    unfold Graph.Halts
    simp only [hrun]
    rfl

theorem strict_doubling : doubling.Strict where
  vars := fun i d hd => by
    match i with
    | 0 =>
      cases hd
      exact ⟨rfl, rfl, rfl⟩
    | i + 1 => cases hd
  ports := fun i port hport => by
    match i with
    | 0 | 1 =>
      cases hport
      exact ⟨rfl, rfl⟩
    | i + 2 => cases hport
  body := by decide +kernel

/-- Where only zeros arrive, the graph of `doubling` reads one. -/
theorem Program.sameEvents_lower_doubling :
    ∃ r, doubling.lower Preset.fast.settings = .ok r ∧
      r.graph.Emits .zero [.read ⟨0⟩ (.zero (.unsigned 8))] := by
  obtain ⟨r, hr, -⟩ := lower_doubling
  refine ⟨r, hr, ((sameEvents_lower strict_doubling hr .zero).1 _).1 ⟨0, ?_⟩⟩
  decide +kernel

end BitFlow
