import BitFlow.Proofs.Lower.Basic
import BitFlow.Proofs.World.Exec

/-!
# Plays

A play runs a finished plan in a world: beside what values and variables hold at the end of a path
it says what was done at the ports along the path. From the end of a path control goes on along the
first jump whose condition holds there, so a play is deterministic.

A position inside a block is told by a plan that has been carried out so far: the play is `At` it
with the memory that the plan's part of the block leaves.

Main statements: `Play.Follows.andThen`, `Play.follows_rounds` -- a play follows a sequence of acts
and the rounds of a loop if it follows the parts.
-/

namespace BitFlow

/-! ## 1. Events along a path -/

/-- What a value does at a port at the end of a path. -/
def Roles.event (R : Roles) (m : Meaning Literal) (π : List BlockId) (v : ValueId) : List Event :=
  match R v with
  | some (.code _ _ i) =>
      i.portUse.toList.map fun u => u.event (m.val v π) (i.operands.map fun o => m.mean o π)
  | _ => []

/-- What some values do at ports, one after the other. -/
def Roles.events (R : Roles) (m : Meaning Literal) (π : List BlockId) (vs : List ValueId) :
    List Event := vs.flatMap (R.event m π)

theorem Roles.events_append (R : Roles) (m : Meaning Literal) (π : List BlockId)
    (vs vs' : List ValueId) : R.events m π (vs ++ vs') = R.events m π vs ++ R.events m π vs' :=
  List.flatMap_append

theorem Roles.event_of_code {R : Roles} {v : ValueId} {b : BlockId} {ty : Ty} {i : Instr}
    (h : R v = some (.code b ty i)) (m : Meaning Literal) (π : List BlockId) :
    R.event m π v =
      i.portUse.toList.map fun u => u.event (m.val v π) (i.operands.map fun o => m.mean o π) := by
  unfold event
  rw [h]

theorem Roles.event_of_silent {R : Roles} {v : ValueId} (h : R.Silent v) (m : Meaning Literal)
    (π : List BlockId) : R.event m π v = [] := by
  obtain ⟨b, ty, i, hv, hu⟩ := h
  rw [event_of_code hv, hu]
  rfl

/-- Code that touches no port does nothing there. -/
theorem Roles.events_of_silent {R : Roles} {vs : List ValueId} (h : ∀ v ∈ vs, R.Silent v)
    (m : Meaning Literal) (π : List BlockId) : R.events m π vs = [] :=
  List.flatMap_eq_nil_iff.2 fun v hv => event_of_silent (h v hv) m π

/-! ## 2. Plays -/

/-- **A finished plan at run time.** -/
structure Play (w : World) (vars : List Variable) where
  plan : Plan
  meaning : Meaning Literal
  /-- What was done at the ports along a path. -/
  hist : List BlockId → List Event
  entry : meaning.entry = Plan.entry
  edge : ∀ {q c}, meaning.edge q c ↔ plan.Edge q c
  wired : plan.Wired
  runs : Runs w vars plan.roles meaning
  store : ∀ {b π} x, meaning.Path (b :: π) →
    meaning.store (b :: π) x = meaning.content plan.writes b π x
  hist_cons : ∀ {b π}, meaning.Path (b :: π) →
    hist (b :: π) = hist π ++ plan.roles.events meaning (b :: π) (plan.code b)
  reads : ∀ {b π pre v post ty i q}, meaning.Path (b :: π) → plan.code b = pre ++ v :: post →
    plan.roles v = some (.code b ty i) → i.portUse = some ⟨q, .read⟩ →
      meaning.val v (b :: π) =
        w.input q ty (readsOf q (hist π ++ plan.roles.events meaning (b :: π) pre))
  writes : ∀ {b π v ty i q}, meaning.Path (b :: π) → plan.roles v = some (.code b ty i) →
    i.portUse = some ⟨q, .write⟩ →
      meaning.val v (b :: π) = w.apply i.op (i.operands.map fun o => meaning.mean o (b :: π)) ty

namespace Play

variable {w : World} {vars : List Variable} (P : Play w vars)

/-- The paths of a play. -/
abbrev Path (π : List BlockId) : Prop := P.meaning.Path π

/-- What values do at ports at the end of a path. -/
def events (π : List BlockId) (vs : List ValueId) : List Event :=
  P.plan.roles.events P.meaning π vs

theorem events_append (π : List BlockId) (vs vs' : List ValueId) :
    P.events π (vs ++ vs') = P.events π vs ++ P.events π vs' :=
  Roles.events_append _ _ _ _ _

theorem events_of_silent {vs : List ValueId} (h : ∀ v ∈ vs, P.plan.roles.Silent v)
    (π : List BlockId) : P.events π vs = [] := Roles.events_of_silent h _ _

theorem hist_block {b : BlockId} {π : List BlockId} (h : P.Path (b :: π)) :
    P.hist (b :: π) = P.hist π ++ P.events (b :: π) (P.plan.code b) := P.hist_cons h

/-- Whether a jump is taken at the end of a path. -/
def takes (π : List BlockId) (br : Branch) : Bool :=
  match br.cond with
  | none => true
  | some o => (P.meaning.mean o π).isTrue

/-- Where control goes from the end of a path. -/
def next : List BlockId → Option BlockId
  | [] => none
  | b :: π => ((P.plan.jumps b).find? (P.takes (b :: π))).map Branch.target

/-- **Control goes on from one path to another.** -/
inductive Goes (start : List BlockId) : List BlockId → Prop where
  | refl : Goes start start
  | step {π : List BlockId} {c : BlockId} (h : Goes start π) (hn : P.next π = some c) :
      Goes start (c :: π)

variable {P} {start π π' : List BlockId} {b c : BlockId} {p : Plan} {μ : Memory}

theorem Goes.trans (h : P.Goes start π) (h' : P.Goes π π') : P.Goes start π' := by
  induction h' with
  | refl => exact h
  | step _ hn ih => exact ih.step hn

theorem Goes.length (h : P.Goes start π) : start.length ≤ π.length := by
  induction h with
  | refl => exact Nat.le_refl _
  | step _ _ ih => exact Nat.le_succ_of_le ih

theorem edge_of_next (h : P.next (b :: π) = some c) : P.plan.Edge b c := by
  obtain ⟨br, hbr, rfl⟩ := Option.map_eq_some_iff.1 h
  exact ⟨br, List.mem_of_find?_eq_some hbr, rfl⟩

theorem path_of_next (h : P.Path (b :: π)) (hn : P.next (b :: π) = some c) :
    P.Path (c :: b :: π) := h.step (P.edge.2 (edge_of_next hn))

theorem Goes.path (h : P.Goes start π) (hs : P.Path start) : P.Path π := by
  induction h with
  | refl => exact hs
  | @step π c _ hn ih =>
    cases π with
    | nil => cases hn
    | cons b π => exact path_of_next ih hn

/-- Control is never in a dead block. -/
theorem live_of_path (hentry : P.plan.dead Plan.entry = false) (h : P.Path (b :: π)) :
    P.plan.dead b = false := by
  cases h with
  | entry => rw [P.entry]; exact hentry
  | step _ he => exact (P.wired.source (P.edge.1 he)).2.2

/-! ## 3. Positions -/

variable (P)

/-- Control has come to `b`, and nothing of `b` has run. -/
inductive Enters (b : BlockId) : List BlockId → Memory → Prop where
  | mk {π : List BlockId} {μ : Memory} (path : P.Path (b :: π))
      (store : P.meaning.store π = μ.store) (trace : P.hist π = μ.trace) : Enters b (b :: π) μ

/-- Control is in `b`, and what `p` has of it has run. -/
inductive At (p : Plan) (b : BlockId) : List BlockId → Memory → Prop where
  | mk {π : List BlockId} {μ : Memory} (path : P.Path (b :: π))
      (store : (fun x => P.meaning.content p.writes b π x) = μ.store)
      (trace : P.hist π ++ P.events (b :: π) (p.code b) = μ.trace) : At p b (b :: π) μ

/-- Control is at the end of `b`. -/
inductive AtEnd (b : BlockId) : List BlockId → Memory → Prop where
  | mk {π : List BlockId} {μ : Memory} (path : P.Path (b :: π))
      (store : P.meaning.store (b :: π) = μ.store) (trace : P.hist (b :: π) = μ.trace) :
      AtEnd b (b :: π) μ

variable {P}

/-- A block of which nothing is planned yet is entered. -/
theorem Enters.at (h : P.Enters b π μ) (hc : p.code b = []) (hw : ∀ x, p.writes b x = none) :
    P.At p b π μ := by
  cases h with
  | mk path store trace =>
    refine ⟨path, ?_, ?_⟩
    · rw [← store]
      funext x
      exact Meaning.content_of_none (hw x) _
    · rw [hc, ← trace]
      exact List.append_nil _

/-- What is planned of a block is all of it, but for code that touches no port. -/
theorem At.atEnd (h : P.At p b π μ) (hw : P.plan.writes b = p.writes b) {new : List ValueId}
    (hc : P.plan.code b = p.code b ++ new) (hs : ∀ v ∈ new, P.plan.roles.Silent v) :
    P.AtEnd b π μ := by
  cases h with
  | mk path store trace =>
    refine ⟨path, ?_, ?_⟩
    · rw [← store]
      funext x
      rw [P.store x path]
      unfold Meaning.content
      rw [hw]
    · rw [P.hist_block path, hc, P.events_append, P.events_of_silent hs, List.append_nil]
      exact trace

/-- From the end of a block control enters the block that it goes to. -/
theorem AtEnd.enters (h : P.AtEnd b π μ) (hn : P.next π = some c) : P.Enters c (c :: π) μ := by
  cases h with
  | mk path store trace => exact ⟨path_of_next path hn, store, trace⟩

/-- A jump whose condition holds is taken if no jump before it is. -/
theorem next_of_jumps {pre : List Branch} {cond : Option Operand}
    (hj : pre ++ [⟨cond, c⟩] <+: P.plan.jumps b) (hpre : ∀ br ∈ pre, P.takes (b :: π) br = false)
    (ht : P.takes (b :: π) ⟨cond, c⟩ = true) : P.next (b :: π) = some c := by
  obtain ⟨post, hpost⟩ := hj
  show ((P.plan.jumps b).find? (P.takes (b :: π))).map Branch.target = some c
  rw [← hpost, List.append_assoc, List.find?_append,
    List.find?_eq_none.2 fun br hbr => by simp [hpre br hbr], Option.none_or, List.singleton_append,
    List.find?_cons_of_pos ht]
  rfl

/-! ## 4. Following an act -/

variable (P)

/-- Control comes to a position with the memory `μ`. -/
def Arrives (start : List BlockId) (goal : List BlockId → Memory → Prop) (μ : Memory) : Prop :=
  ∃ π, P.Goes start π ∧ goal π μ

/-- Control has done `t` at the ports when it has gone at least `n` steps. -/
def Pauses (start : List BlockId) (n : Nat) (t : List Event) : Prop :=
  ∃ c π, P.Goes start (c :: π) ∧ P.hist π = t ∧ start.length + n ≤ (c :: π).length

end Play

/-- Where control is to be after an act: behind it, out of the loop, or at the next round, which
    comes after `step`. -/
structure Exits where
  onward : List BlockId → Memory → Prop
  leave : List BlockId → Memory → Prop
  again : List BlockId → Memory → Prop
  step : Act

namespace Play

variable {w : World} {vars : List Variable} {P : Play w vars} {start start' : List BlockId}
  {E E' : Exits} {n : Nat} {o : Outcome}

variable (P) in
/-- Control goes where the step between two rounds says. -/
def FollowsStep (E : Exits) (start : List BlockId) (n : Nat) : Outcome → Prop
  | .pause t => P.Pauses start n t
  | .done .leave μ => P.Arrives start E.leave μ
  | .done _ μ => P.Arrives start E.again μ

variable (P) in
/-- **Control goes where the outcome of an act says.** What is said to go on with the next round
    runs the step first, cut off wherever one likes. -/
def Follows (E : Exits) (start : List BlockId) (n : Nat) : Outcome → Prop
  | .pause t => P.Pauses start n t
  | .done .onward μ => P.Arrives start E.onward μ
  | .done .leave μ => P.Arrives start E.leave μ
  | .done .again μ => ∀ k, P.FollowsStep E start k (E.step k μ)

theorem Arrives.goes {goal : List BlockId → Memory → Prop} {μ : Memory}
    (h : P.Arrives start' goal μ) (hg : P.Goes start start') : P.Arrives start goal μ := by
  obtain ⟨π, h1, h2⟩ := h
  exact ⟨π, hg.trans h1, h2⟩

/-- Control goes along the first jump that is taken. -/
theorem AtEnd.next {b c : BlockId} {π : List BlockId} {μ : Memory} (h : P.AtEnd b π μ)
    (pre : List Branch) (cond : Option Operand) (hj : pre ++ [⟨cond, c⟩] <+: P.plan.jumps b)
    (hpre : ∀ br ∈ pre, P.takes π br = false)
    (ht : P.takes π ⟨cond, c⟩ = true) : P.next π = some c := by
  cases h with
  | mk path _ _ => exact next_of_jumps hj hpre ht

theorem AtEnd.arrives {b c : BlockId} {π : List BlockId} {μ : Memory} (h : P.AtEnd b π μ)
    (hn : P.next π = some c) : P.Arrives π (P.Enters c) μ :=
  ⟨c :: π, .step .refl hn, h.enters hn⟩

/-- From a block that is finished and has an unconditional jump first control enters the target. -/
theorem At.arrives {p : Plan} {b c : BlockId} {π : List BlockId} {μ : Memory} (h : P.At p b π μ)
    (hc : P.plan.code b = p.code b) (hw : P.plan.writes b = p.writes b)
    (hj : [⟨none, c⟩] <+: P.plan.jumps b) : P.Arrives π (P.Enters c) μ := by
  have hend := h.atEnd hw (hc.trans (List.append_nil _).symm) fun v hv => by cases hv
  exact hend.arrives (hend.next [] none hj (fun br hbr => by cases hbr) rfl)

theorem Arrives.here {goal : List BlockId → Memory → Prop} {π : List BlockId} {μ : Memory}
    (h : goal π μ) : P.Arrives π goal μ := ⟨π, .refl, h⟩

/-- From one position on to another. -/
theorem Arrives.andThen {goal goal' : List BlockId → Memory → Prop} {μ : Memory}
    (h : P.Arrives start goal μ) (hgoal : ∀ {π}, goal π μ → P.Arrives π goal' μ) :
    P.Arrives start goal' μ := by
  obtain ⟨π, h1, h2⟩ := h
  exact (hgoal h2).goes h1

/-- What is gone before a path counts for the number of steps. -/
theorem Pauses.goes {m : Nat} {t : List Event} (hg : P.Goes start start')
    (hm : start.length + m ≤ start'.length + n) (h : P.Pauses start' n t) : P.Pauses start m t := by
  obtain ⟨c, π, h1, h2, h3⟩ := h
  exact ⟨c, π, hg.trans h1, h2, Nat.le_trans hm h3⟩

theorem FollowsStep.goes {m : Nat} (hg : P.Goes start start')
    (hm : start.length + m ≤ start'.length + n) (h : P.FollowsStep E start' n o) :
    P.FollowsStep E start m o := by
  match o with
  | .pause t => exact Pauses.goes hg hm h
  | .done .leave μ => exact Arrives.goes h hg
  | .done .onward μ => exact Arrives.goes h hg
  | .done .again μ => exact Arrives.goes h hg

/-- What control follows from a later path it follows from an earlier one. -/
theorem Follows.goes {m : Nat} (hg : P.Goes start start')
    (hm : start.length + m ≤ start'.length + n) (h : P.Follows E start' n o) :
    P.Follows E start m o := by
  match o with
  | .pause t => exact Pauses.goes hg hm h
  | .done .onward μ => exact Arrives.goes h hg
  | .done .leave μ => exact Arrives.goes h hg
  | .done .again μ =>
    exact fun k => FollowsStep.goes hg (Nat.add_le_add_right hg.length k) (h k)

/-- From the positions after the step on to others. -/
theorem FollowsStep.mono (h : P.FollowsStep E start n o)
    (hl : ∀ {π μ}, E.leave π μ → P.Arrives π E'.leave μ)
    (ha : ∀ {π μ}, E.again π μ → P.Arrives π E'.again μ) : P.FollowsStep E' start n o := by
  match o with
  | .pause t => exact h
  | .done .leave μ => exact Arrives.andThen h hl
  | .done .onward μ => exact Arrives.andThen h ha
  | .done .again μ => exact Arrives.andThen h ha

/-- **One act after the other.** -/
theorem Follows.andThen {x y : Act} {μ : Memory} (h : P.Follows E start n (x n μ))
    (hs : E'.step = E.step) (hl : ∀ {π μ}, E.leave π μ → P.Arrives π E'.leave μ)
    (ha : ∀ {π μ}, E.again π μ → P.Arrives π E'.again μ)
    (hy : ∀ {π μ}, E.onward π μ → P.Follows E' π n (y n μ)) :
    P.Follows E' start n (x.andThen y n μ) := by
  unfold Act.andThen
  match hx : x n μ with
  | .pause t =>
    rw [hx] at h
    exact h
  | .done .onward μ' =>
    rw [hx] at h
    obtain ⟨π, h1, h2⟩ := h
    exact Follows.goes h1 (Nat.add_le_add_right h1.length n) (hy h2)
  | .done .leave μ' =>
    rw [hx] at h
    exact Arrives.andThen h hl
  | .done .again μ' =>
    rw [hx] at h
    intro k
    rw [hs]
    exact FollowsStep.mono (h k) hl ha

/-- From the positions after an act on to others. -/
theorem Follows.mono (h : P.Follows E start n o) (hs : E'.step = E.step)
    (ho : ∀ {π μ}, E.onward π μ → P.Arrives π E'.onward μ)
    (hl : ∀ {π μ}, E.leave π μ → P.Arrives π E'.leave μ)
    (ha : ∀ {π μ}, E.again π μ → P.Arrives π E'.again μ) : P.Follows E' start n o := by
  match o with
  | .pause t => exact h
  | .done .onward μ => exact Arrives.andThen h ho
  | .done .leave μ => exact Arrives.andThen h hl
  | .done .again μ =>
    intro k
    rw [hs]
    exact FollowsStep.mono (h k) hl ha

/-- What is done between two rounds, where there is nothing further between them. -/
theorem Follows.followsStep (h : P.Follows E start n o) (hs : E.step = .skip)
    (ho : ∀ {π μ}, E.onward π μ → P.Arrives π E'.again μ)
    (hl : ∀ {π μ}, E.leave π μ → P.Arrives π E'.leave μ)
    (ha : ∀ {π μ}, E.again π μ → P.Arrives π E'.again μ) : P.FollowsStep E' start n o := by
  match o with
  | .pause t => exact h
  | .done .onward μ => exact Arrives.andThen h ho
  | .done .leave μ => exact Arrives.andThen h hl
  | .done .again μ =>
    have hstep := h 0
    rw [hs] at hstep
    exact Arrives.andThen hstep ha

/-- **The rounds of a loop.** `head` is where a round begins; a round goes at least one step. -/
theorem follows_rounds {test : Store → Bool} {body step : Act}
    {head between : List BlockId → Memory → Prop}
    (hhead : ∀ {π μ}, head π μ → ∃ c π', π = c :: π' ∧ P.hist π' = μ.trace)
    (hout : ∀ {π μ}, head π μ → test μ.store = false → P.Arrives π E.onward μ)
    (hin : ∀ {π μ} n, head π μ → test μ.store = true → ∃ π', P.Goes π π' ∧
      π.length < π'.length ∧ P.Follows ⟨between, E.onward, head, step⟩ π' n (body n μ))
    (hstep : ∀ {π μ} n, between π μ →
      P.FollowsStep ⟨between, E.onward, head, step⟩ π n (step n μ)) (n : Nat) :
    ∀ {π μ}, head π μ → P.Follows E π n (Act.rounds test body step n μ) := by
  induction n with
  | zero =>
    intro π μ h
    unfold Act.rounds
    split
    · obtain ⟨c, π', rfl, ht⟩ := hhead h
      exact ⟨c, π', .refl, ht, Nat.le_refl _⟩
    · rename_i htest
      exact hout h (Bool.eq_false_iff.2 htest)
  | succ n ih =>
    intro π μ h
    -- what follows the body: the step, and then the rounds that are left
    have hafter : ∀ {π' μ'}, P.Goes π π' → π.length < π'.length →
        P.FollowsStep ⟨between, E.onward, head, step⟩ π' n (step n μ') →
        P.Follows E π (n + 1)
          (match step n μ' with
          | .pause t => .pause t
          | .done .leave μ'' => .done .onward μ''
          | .done _ μ'' => Act.rounds test body step n μ'') := by
      intro π' μ' hg hlt hs
      have hlen : π.length + (n + 1) ≤ π'.length + n := by omega
      have hround : ∀ {μ''}, P.Arrives π' head μ'' →
          P.Follows E π (n + 1) (Act.rounds test body step n μ'') := by
        rintro μ'' ⟨π'', hg', h''⟩
        have := hg'.length
        exact Follows.goes (hg.trans hg') (by omega) (ih h'')
      match hx : step n μ' with
      | .pause t =>
        rw [hx] at hs
        exact Pauses.goes hg hlen hs
      | .done .leave μ'' =>
        rw [hx] at hs
        exact Arrives.goes hs hg
      | .done .onward μ'' =>
        rw [hx] at hs
        exact hround hs
      | .done .again μ'' =>
        rw [hx] at hs
        exact hround hs
    unfold Act.rounds
    split
    · rename_i htest
      obtain ⟨π', hg, hlt, hb⟩ := hin n h htest
      match hx : body n μ with
      | .pause t =>
        rw [hx] at hb
        exact Pauses.goes hg (by omega) hb
      | .done .leave μ' =>
        rw [hx] at hb
        exact Arrives.goes hb hg
      | .done .onward μ' =>
        rw [hx] at hb
        obtain ⟨π'', hg', h''⟩ := hb
        have := hg'.length
        exact hafter (hg.trans hg') (by omega) (hstep n h'')
      | .done .again μ' =>
        rw [hx] at hb
        exact hafter hg hlt (hb n)
    · rename_i htest
      exact hout h (Bool.eq_false_iff.2 htest)

end Play

end BitFlow
