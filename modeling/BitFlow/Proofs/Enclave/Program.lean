import BitFlow.Proofs.Course.Definitions
import BitFlow.Proofs.Enclave.Lower

/-!
# Dead code leaves live code alone

Between any two operations of a lowering nothing leads to a dead block, and what is recorded there
is at hand there (`Moves.founded`). So an enclave may be started at every dead block, and whatever
is lowered there -- conditionals, loops, jumps out of the loops around -- makes dead blocks only
and leaves all other blocks, their values with their users, their definitions and the open loops as
they were.

Main statement: `Program.spares_lowerStmts`.
-/

namespace BitFlow

/-! ## 1. Where an enclave may be started -/

/-- **An enclave may be started at every dead block** of a founded state. -/
theorem Tracked.Founded.confines {s : Tracked} (h : s.Founded) {b : BlockId}
    (hb : s.graph.kind? b = some .unreachable) : Enclave.Confines ⟨s, b⟩ s := by
  let E : Enclave := ⟨s, b⟩
  have hsteady := h.sane.steady
  have hvalue : ∀ {v}, s.graph.Lacks v → ¬ v.index < s.graph.values.size := Nat.not_lt.2
  have hblock : ∀ {c y}, E.Made c → s.graph.block? c ≠ some y := fun hc hy =>
    Nat.not_lt.2 hc (Graph.index_lt_of_block? hy)
  have howner : ∀ {c v}, E.Made c → ¬ s.graph.Owns c v := fun hc ⟨x, hx, hxc⟩ => by
    obtain ⟨y, hy⟩ := hsteady.orderly.owner_known hx hxc
    exact hblock hc hy
  have hpreds : ∀ {c}, E.Covers c → s.graph.preds c = [] := by
    rintro c (rfl | hc)
    · exact h.sheltered.bare hb
    · unfold Graph.preds Graph.shape
      cases hy : s.graph.block? c with
      | none => rfl
      | some y => exact absurd hy (hblock hc)
  refine ⟨⟨⟨Nat.le_refl _, Nat.le_refl _⟩, fun _ _ => rfl, fun _ _ => rfl, fun _ _ => rfl,
    fun {c y} hc hy => ⟨?_, ?_⟩, fun hv hx => absurd (Graph.index_lt_of_value? hx) (hvalue hv),
    fun {v u} hv hu => ?_, fun {v o} hv ho => ?_⟩, fun _ _ _ => rfl, fun {x c o} hc ho v e => ?_,
    fun {v q} hv hq => ?_, fun {c x v} hc hw => ?_⟩
  · -- the block where the enclave starts is the only one that is there
    rcases hc with rfl | hc
    · cases hdead : y.isUnreachable with
      | true => rfl
      | false => cases hb.symm.trans ((Graph.live_iff hy).2 hdead)
    · exact absurd hy (hblock hc)
  · exact (Graph.preds_of_block? hy).symm.trans (hpreds hc)
  · exact absurd (hsteady.knows ((hsteady.orderly.mem_users v u).1 hu)) (hvalue hv)
  · obtain ⟨hlt, hgone⟩ := (hsteady.forwarding.removed v).1 (Forwards.mem_keys_of_lookup ho)
    rcases hv with hv | hv
    · exact absurd hlt (hvalue hv)
    · exact absurd hv.attached hgone
  · have hat : s.graph.Owns c v := h.sheltered.housed c x o (hpreds hc) ho v e
    rcases hc with rfl | hc
    · exact .inr hat
    · exact absurd hat (howner hc)
  · have hdef := ((h.sane.mirrored v q).1 hq).2
    exact absurd (h.sane.defs_known hdef v rfl) (hvalue hv)
  · obtain ⟨⟨ty, hphi⟩, -⟩ := h.sane.pending hw
    exact absurd (Graph.owns_of_phi? hphi) (howner hc)

/-! ## 2. What dead code leaves -/

/-- **What is made on the way from `l` to `l'` is dead, and nothing that is not of the block `b` is
    touched**: no other block, with phis, instructions, predecessors, branches and seal, no value of
    another block, with its users, no definition at the end of another block, and no open loop, with
    head, breaks and step. -/
structure Lowering.Spares (b : BlockId) (l l' : Lowering) : Prop where
  made : ∀ c y, l.bench.graph.block? c = none → l'.bench.graph.block? c = some y →
    y.kind = .unreachable
  block : ∀ c y, c ≠ b → l.bench.graph.block? c = some y → l'.bench.graph.block? c = some y
  value : ∀ v x, l.bench.graph.value? v = some x → x.block ≠ some b →
    l'.bench.graph.value? v = some x ∧ l'.bench.graph.users v = l.bench.graph.users v
  defs : ∀ x c y, c ≠ b → l.bench.graph.block? c = some y →
    l'.bench.reaching.definition? x c = l.bench.reaching.definition? x c
  loops : l'.loops = l.loops

/-- What is left of an enclave that was started at `b`. -/
theorem Enclave.Inside.spares {l l' : Lowering} {b : BlockId}
    (h : Enclave.Inside ⟨l.tracked, b⟩ l.loops l') : l.Spares b l' := by
  let E : Enclave := ⟨l.tracked, b⟩
  obtain ⟨⟨hgraph, htables⟩, hloops⟩ := h
  have hcovers : ∀ {c y}, c ≠ b → l.bench.graph.block? c = some y → ¬ E.Covers c := by
    rintro c y hne hy (rfl | hc)
    · exact hne rfl
    · exact absurd (Graph.index_lt_of_block? hy) (Nat.not_lt.2 hc)
  refine ⟨fun c y hc hy => ?_, fun c y hne hy => (hgraph.block c (hcovers hne hy)).trans hy,
    fun v x hx hxb => ?_, fun x c y hne hy => htables.outside x c (hcovers hne hy), hloops⟩
  · have hmade : E.Made c := by
      refine Nat.le_of_not_lt fun hlt => ?_
      obtain ⟨z, hz⟩ := Graph.exists_block? hlt
      cases hc.symm.trans hz
    have hdead := (hgraph.stranded (.inr hmade) hy).1
    cases hkind : y.kind with
    | unreachable => rfl
    | live =>
      unfold Block.isUnreachable at hdead
      rw [hkind] at hdead
      cases hdead
  · have hout : ¬ E.Has v := by
      rintro (hv | ⟨z, hz, hzb⟩)
      · exact absurd (Graph.index_lt_of_value? hx) (Nat.not_lt.2 hv)
      · cases hx.symm.trans hz
        exact hxb hzb
    exact ⟨(hgraph.value v hout).trans hx, hgraph.users v hout⟩

/-! ## 3. Programs -/

namespace Program

/-- **Dead code leaves live code alone.** In every state between two operations of a lowering: any
    statements that are lowered at a dead block end at a dead block, make dead blocks only, and
    touch nothing that is not of the block where they start. `fs` are the loops around, as far as
    `continue` looks at them. -/
theorem spares_lowerStmts {p : Program} {s : Settings} {l : Lowering} (h : p.Meets s l.tracked)
    {b : BlockId} (hb : l.bench.graph.kind? b = some .unreachable) (fs : List LoopFrame)
    (ss : List Stmt) {last : BlockId} {l' : Lowering}
    (run : (Lower.lowerStmts p (Lower.innermostAdvance p fs) ss b).run l = .ok last l') :
    l'.bench.graph.kind? last = some .unreachable ∧ l.Spares b l' := by
  have hinherits := Lower.inherits_lowerStmts p ss (Lower.inherits_innermostAdvance p fs)
  obtain ⟨-, k, hk, hlive⟩ := (hinherits False l b ⟨_, hb, fun e => by cases e⟩).of_ok run
  have hstart : Enclave.Inside ⟨l.tracked, b⟩ l.loops l :=
    ⟨(h.moves.founded (.start p s)).confines hb, rfl⟩
  have hclosed : Enclave.Closed ⟨l.tracked, b⟩ _ :=
    Enclave.closed_lowerStmts p ss (Enclave.closed_innermostAdvance p fs)
  have hinside := (hclosed l.loops b (.inl rfl) l hstart).of_ok run
  refine ⟨?_, hinside.1.spares⟩
  cases k with
  | live => exact (hlive rfl).elim
  | unreachable => exact hk

/-- A loop that is left at once; what stands behind the `break` is dead. -/
def leaving : Program where
  name := "leaving"
  vars := [⟨⟨0⟩, "x", .unsigned 8, []⟩]
  ports := [⟨⟨0⟩, "in", .unsigned 8, .input⟩, ⟨⟨1⟩, "out", .unsigned 8, .output⟩]
  body := [.read ⟨0⟩ ⟨0⟩,
    .whileLoop (.lit (.ofNat 1 .bit))
      [.breakLoop, .assign ⟨0⟩ [] (.binary .add (.var ⟨0⟩) (.var ⟨0⟩))],
    .write ⟨1⟩ (.var ⟨0⟩)]

/-- A loop that counts up, goes on early, and is left by a `break`; then on to the next round of the
    loop around. -/
def deadNest : List Stmt :=
  [.whileLoop (.compare .lt (.var ⟨0⟩) (.lit (.ofNat 100 (.unsigned 8))))
      [.branch [(.compare .eq (.var ⟨0⟩) (.lit (.ofNat 7 (.unsigned 8))), [.continueLoop])]
          [.breakLoop],
        .assign ⟨0⟩ [] (.binary .add (.var ⟨0⟩) (.lit (.ofNat 1 (.unsigned 8))))],
    .continueLoop]

/-- The loop of `leaving`, still open. -/
def leavingLoop : LoopFrame := ⟨"while0", ⟨1⟩, [⟨2⟩], [.assign ⟨0⟩ [] (.var ⟨0⟩)]⟩

/-- A lowering that goes on from given graph and tables, with the loop of `leaving` open. -/
def reopened (t : Tracked) : Lowering :=
  ⟨⟨t.graph, t.reaching, ⟨t.graph.entry, none⟩, 64⟩, [leavingLoop], 10⟩

/-- In the dead block of `leaving` a whole nest is lowered, which reads what the live code writes
    and goes on to the next round of the live loop. It makes many blocks. -/
theorem spares_lowerStmts_leaving : ∃ l last l', leaving.Meets Preset.fast.settings l.tracked ∧
    l.bench.graph.kind? ⟨3⟩ = some .unreachable ∧ l.bench.graph.kind? ⟨1⟩ = some .live ∧
    (Lower.lowerStmts leaving (Lower.innermostAdvance leaving l.loops) deadNest ⟨3⟩).run l =
      .ok last l' ∧
    (l'.bench.graph.block? ⟨10⟩).isSome = true ∧
    l'.bench.graph.kind? last = some .unreachable ∧ l.Spares ⟨3⟩ l' := by
  let nest : Lower BlockId :=
    Lower.lowerStmts leaving (Lower.innermostAdvance leaving [leavingLoop]) deadNest ⟨3⟩
  have hend : leaving.finishesWith Preset.fast.settings (fun t =>
      t.graph.kind? ⟨3⟩ == some .unreachable && t.graph.kind? ⟨1⟩ == some .live &&
        (nest.run' (reopened t)).isSome &&
          ((after nest (reopened t)).bench.graph.block? ⟨10⟩).isSome) = true := by decide +kernel
  obtain ⟨t, ht, htest⟩ := meets_of_finishesWith hend
  simp only [Bool.and_eq_true, beq_iff_eq] at htest
  obtain ⟨⟨⟨hdead, hlive⟩, hends⟩, hmade⟩ := htest
  cases run : nest.run (reopened t) with
  | error e l' =>
    unfold EStateM.run' at hends
    rw [run] at hends
    cases hends
  | ok last l' =>
    unfold after at hmade
    rw [run] at hmade
    have hspares := spares_lowerStmts (l := reopened t) ht hdead [leavingLoop] deadNest run
    exact ⟨reopened t, last, l', ht, hdead, hlive, run, hmade, hspares⟩

end Program

end BitFlow
