import BitFlow.Proofs.Graph.Check
import BitFlow.Proofs.Play.Scene
import Mathlib.Data.List.Find

/-!
# A graph runs as its plan is played

The graph that is built to a plan is run step by step as the plan is played: the run has come to the
end of a path with the same trace, and the values that are there hold what they hold in the play. So
the same branches are taken.

Main statements: `Built.shows_visit`, `Built.emits_iff`, `Built.halts_iff`.
-/

namespace BitFlow

namespace Built

variable {p : Plan} {s : Tracked} {w : World} {b : BlockId} {π : List BlockId}

/-! ## 1. Values that are there -/

/-- **The run has come to the end of a path.** -/
structure Shows (h : Built p s) (w : World) (st : Station) (b : BlockId) (π : List BlockId) :
    Prop where
  block : st.block = b
  trace : st.tape.trace = (h.play w).hist (b :: π)
  vals : ∀ {u}, s.graph.Attached u → (h.meaning w).Dom ((h.meaning w).home u) b →
    st.tape.vals u = (h.meaning w).val u (b :: π)

/-- The instructions `pre` of `b` have been performed. -/
structure Midway (h : Built p s) (w : World) (t : Tape) (b : BlockId) (π : List BlockId)
    (pre : List ValueId) : Prop where
  trace : t.trace = (h.play w).hist π ++ (h.play w).events (b :: π) pre
  vals : ∀ {u}, s.graph.Attached u → (h.meaning w).Dom ((h.meaning w).home u) b →
    ((h.meaning w).home u = b → (∃ q, s.graph.phi? u = some q) ∨ u ∈ pre) →
      t.vals u = (h.meaning w).val u (b :: π)

/-- Where a value is attached is where it counts as computed. -/
theorem home_phi (h : Built p s) {u : ValueId} {q : OwnedPhi} (hq : s.graph.phi? u = some q) :
    (h.meaning w).home u = q.block := Draft.homeOf_phi (h.drawn.covers.phi hq) _

theorem mem_code_of_instr (h : Built p s) {u : ValueId} {i : OwnedInstr}
    (hi : s.graph.instr? u = some i) : u ∈ p.code ((h.meaning w).home u) := by
  obtain ⟨j, hj, rfl⟩ := Option.map_eq_some_iff.1 ((h.instr u).symm.trans hi)
  have hrole := Roles.instr?_eq_some.1 hj
  rw [show (h.meaning w).home u = j.block from Draft.homeOf_code hrole _]
  exact h.mem_code.2 ⟨_, _, hrole⟩

theorem instrs_eq (h : Built p s) {y : Block} (hb : s.graph.block? b = some y) :
    s.graph.instrs b = p.code b := by
  unfold Graph.instrs
  rw [hb]
  exact (h.block hb).2.2

theorem known_of_path (h : Built p s) (hπ : (h.play w).Path (b :: π)) :
    ∃ y, s.graph.block? b = some y := h.known (h.reached_known ⟨π, hπ⟩)

/-! ## 2. One block -/

/-- What is defined before a block is defined before the predecessors of it. -/
theorem dom_source (h : Built p s) {c q : BlockId} (hc : (h.meaning w).Dom c b) (hne : c ≠ b)
    (he : p.Edge q b) : (h.meaning w).Dom c q := fun ρ hρ =>
  (List.mem_cons.1 (hc (q :: ρ) (hρ.step he))).resolve_left hne

/-- A phi takes the operand for the edge that was followed, and so what its variable holds there. -/
theorem entering_phi (h : Built p s) (hcomplete : s.graph.Complete) {vals : ValueId → Literal}
    {u : ValueId} {q : OwnedPhi} {c : BlockId} {ρ : List BlockId}
    (hq : s.graph.phi? u = some q) (hρ : (h.play w).Path (c :: ρ)) (he : p.Edge c q.block)
    (hvals : ∀ {x}, s.graph.Attached x → (h.meaning w).Dom ((h.meaning w).home x) c →
      vals x = (h.meaning w).val x (c :: ρ)) :
    s.graph.entering w (some c) q.block vals u = (h.meaning w).val u (q.block :: c :: ρ) := by
  have hm := h.models_play w
  have hmem : c ∈ q.sources := by
    rw [hcomplete.phis hq]
    exact h.mem_preds.2 he
  obtain ⟨e, he₁, he₂⟩ := List.mem_map.1 hmem
  unfold Graph.entering
  rw [hq]
  dsimp only
  rw [if_pos rfl]
  cases hfind : q.incoming.find? fun e => some e.2 = some c with
  | none =>
    exact absurd (decide_eq_true (congrArg some he₂)) (List.find?_eq_none.1 hfind e he₁)
  | some e' =>
    have hdec := List.find?_some hfind
    obtain rfl : e'.2 = c := Option.some.inj (of_decide_eq_true hdec)
    have hmem' := List.mem_of_find?_eq_some hfind
    have hisPhi := hm.phi (h.drawn.covers.phi hq)
    obtain ⟨hav, hmean⟩ := (h.drawn.sound hm).incoming hq hmem'
    rw [show (h.meaning w).val u _ = _ from hisPhi.val _ (hρ.step he), ← hmean ρ hρ]
    show w.operand vals e'.1 = (h.meaning w).mean e'.1 (e'.2 :: ρ)
    cases ho : e'.1 with
    | lit c => rfl
    | undef ty => rfl
    | value x =>
      refine hvals ?_ (hav x ho)
      exact h.steady.phi_anchors hq _ (List.mem_map.2 ⟨e', hmem', rfl⟩) x ho

/-- Nothing leads to the entry, so it has no phi. -/
theorem no_phi_entry (h : Built p s) (hcomplete : s.graph.Complete) {u : ValueId} {q : OwnedPhi}
    (hq : s.graph.phi? u = some q) : q.block ≠ Plan.entry := by
  intro e
  obtain ⟨x, hx, hxb, -⟩ := Graph.phi?_eq_some.1 hq
  obtain ⟨y, hy⟩ := h.orderly.owner_known hx hxb
  refine h.drawn.fed hq ((Graph.isSealed_of_block? hy).trans (hcomplete.closed hy)) ?_
  rw [e, ← h.entry]
  exact h.entry_preds

/-- **A block is entered**: its phis hold what they should. -/
theorem midway_entering (h : Built p s) (hcomplete : s.graph.Complete)
    {source : Option BlockId} {t : Tape} (hπ : (h.play w).Path (b :: π)) (hsource : source = π.head?)
    (htrace : t.trace = (h.play w).hist π)
    (hvals : ∀ {q ρ}, π = q :: ρ → ∀ {u}, s.graph.Attached u →
      (h.meaning w).Dom ((h.meaning w).home u) q → t.vals u = (h.meaning w).val u π) :
    h.Midway w ⟨s.graph.entering w source b t.vals, t.trace⟩ b π [] := by
  refine ⟨htrace.trans (List.append_nil _).symm, fun {u} hu hdom hplace => ?_⟩
  by_cases hphi : ∃ q, s.graph.phi? u = some q ∧ q.block = b
  · obtain ⟨q, hq, rfl⟩ := hphi
    subst hsource
    generalize hb : q.block = b at hπ ⊢
    cases hπ with
    | entry => exact absurd hb (h.no_phi_entry hcomplete hq)
    | @step c _ ρ hρ he =>
      subst hb
      exact h.entering_phi hcomplete hq hρ he fun hx hd => hvals rfl hx hd
  · -- what is no phi of the block keeps what it held at the end of the predecessor
    have hkeep : s.graph.entering w source b t.vals u = t.vals u := by
      unfold Graph.entering
      split
      · rename_i q hq
        exact if_neg fun e => hphi ⟨q, hq, e⟩
      · rfl
    have hne : (h.meaning w).home u ≠ b := by
      intro e
      rcases hplace e with ⟨q, hq⟩ | hmem
      · exact hphi ⟨q, hq, (h.home_phi hq).symm.trans e⟩
      · cases hmem
    refine hkeep.trans ?_
    rw [(h.meaning w).val_away hne]
    cases hπ with
    | entry => exact absurd (List.mem_singleton.1 (hdom [] .entry)) hne
    | step hρ he => exact hvals rfl hu (h.dom_source hdom hne he)

/-- An operand of an instruction holds what it was given for. -/
theorem operand_midway (h : Built p s) {t : Tape} {v : ValueId} {pre post : List ValueId}
    (hm : h.Midway w t b π pre) (hπ : (h.play w).Path (b :: π))
    (hcode : p.code b = pre ++ v :: post) {ty : Ty} {i : Instr}
    (hv : p.roles v = some (.code b ty i)) {o : Operand} (ho : o ∈ i.operands) :
    w.operand t.vals (s.graph.resolve o) = (h.meaning w).mean o (b :: π) := by
  obtain ⟨holder, havail⟩ := h.operands hv o ho
  have hmodels := h.models_play w
  obtain ⟨hav, hsame, hplace⟩ := (h.drawn.sound hmodels).resolve h.steady (havail hmodels)
  have hknown : s.graph.Knows o := fun x hx =>
    Nat.lt_trans (holder x hx) (h.drawn.covers.known hv)
  rw [show (h.meaning w).mean o (b :: π) = _ from (hsame π hπ).symm]
  cases hres : s.graph.resolve o with
  | lit c => rfl
  | undef ty => rfl
  | value u =>
    have hatt : s.graph.Attached u := h.steady.anchors_resolve hknown u hres
    refine hm.vals hatt (hav u hres) fun hhome => ?_
    rcases Graph.attached_iff.1 hatt with ⟨q, hq⟩ | ⟨j, hj⟩
    · exact .inl ⟨q, hq⟩
    · -- an instruction of the same block: it was given so, and stands before
      rcases hplace with hsame' | haway
      · have hlt := holder u (hsame'.symm.trans hres)
        have hmem := h.mem_code_of_instr (w := w) hj
        rw [hhome, hcode] at hmem
        refine .inr ((List.mem_append.1 hmem).resolve_right fun hpost => ?_)
        have horder := h.inOrder b
        rw [hcode] at horder
        exact horder.not_mem hlt hpost
      · exact absurd hhome (haway u π hres hπ)

/-- **One instruction is performed.** -/
theorem midway_perform (h : Built p s) {t : Tape} {v : ValueId} {pre post : List ValueId}
    (hm : h.Midway w t b π pre) (hπ : (h.play w).Path (b :: π))
    (hcode : p.code b = pre ++ v :: post) :
    h.Midway w (w.perform s.graph.instr? t v) b π (pre ++ [v]) := by
  obtain ⟨ty, i, hv⟩ := h.mem_code.1 (show v ∈ p.code b by
    rw [hcode]
    exact List.mem_append_right _ List.mem_cons_self)
  have hi : s.graph.instr? v = some (s.graph.settleInstr ⟨b, ty, i⟩) := by
    have hrole : p.roles.instr? v = some ⟨b, ty, i⟩ := Roles.instr?_eq_some.2 hv
    rw [h.instr, hrole]
    rfl
  -- the operands are what they are in the play
  have hargs : (i.operands.map s.graph.resolve).map (w.operand t.vals) =
      i.operands.map fun o => (h.meaning w).mean o (b :: π) := by
    rw [List.map_map]
    exact List.map_congr_left fun o ho => h.operand_midway hm hπ hcode hv ho
  have hresult : w.result t (s.graph.settleInstr ⟨b, ty, i⟩) = (h.meaning w).val v (b :: π) := by
    unfold World.result
    dsimp only [Graph.settleInstr]
    rw [hargs]
    split
    · rename_i q hq
      rw [hm.trace]
      exact ((h.play w).reads hπ hcode hv hq).symm
    · rename_i hq
      exact (h.val_apply hv fun q e => hq q e).symm
  rw [World.perform_of_code hi, hresult]
  refine ⟨?_, fun {u} hu hdom hplace => ?_⟩
  · show t.trace ++ _ = _
    rw [hm.trace, (h.play w).events_append, ← List.append_assoc]
    congr 1
    unfold Play.events Roles.events
    rw [List.flatMap_singleton, Roles.event_of_code (show (h.play w).plan.roles v = _ from hv)]
    show i.portUse.toList.map (fun u => u.event ((h.meaning w).val v (b :: π))
      ((i.operands.map s.graph.resolve).map (w.operand t.vals))) = _
    rw [hargs]
    rfl
  · by_cases e : u = v
    · rw [e]
      exact Function.update_self _ _ _
    · refine (Function.update_of_ne e _ _).trans (hm.vals hu hdom fun hhome => ?_)
      refine (hplace hhome).imp id fun hmem => ?_
      exact (List.mem_append.1 hmem).resolve_right fun hs => e (List.mem_singleton.1 hs)

/-- All instructions of a block are performed. -/
theorem midway_performAll (h : Built p s) {t : Tape} {pre post : List ValueId}
    (hm : h.Midway w t b π pre) (hπ : (h.play w).Path (b :: π)) (hcode : p.code b = pre ++ post) :
    h.Midway w (w.performAll s.graph.instr? t post) b π (p.code b) := by
  induction post generalizing t pre with
  | nil =>
    rw [List.append_nil] at hcode
    rw [hcode]
    exact hm
  | cons v post ih =>
    refine ih (h.midway_perform hm hπ hcode) ?_
    rw [hcode, List.append_assoc]
    rfl

/-- **A block is run as it is played.** -/
theorem shows_visit (h : Built p s) (hcomplete : s.graph.Complete) {source : Option BlockId}
    {t : Tape} (hπ : (h.play w).Path (b :: π)) (hsource : source = π.head?)
    (htrace : t.trace = (h.play w).hist π)
    (hvals : ∀ {q ρ}, π = q :: ρ → ∀ {u}, s.graph.Attached u →
      (h.meaning w).Dom ((h.meaning w).home u) q → t.vals u = (h.meaning w).val u π) :
    h.Shows w (s.graph.visit w source b t) b π := by
  obtain ⟨y, hy⟩ := h.known_of_path hπ
  have hend := h.midway_performAll (h.midway_entering hcomplete hπ hsource htrace hvals) hπ
    (List.nil_append _).symm
  have htape : (s.graph.visit w source b t).tape = w.performAll s.graph.instr?
      ⟨s.graph.entering w source b t.vals, t.trace⟩ (p.code b) := by
    rw [← h.instrs_eq hy]
    rfl
  rw [← htape] at hend
  refine ⟨rfl, hend.trace.trans ((h.play w).hist_block hπ).symm, fun {u} hu hdom =>
    hend.vals hu hdom fun hhome => ?_⟩
  rcases Graph.attached_iff.1 hu with hphi | ⟨i, hi⟩
  · exact .inl hphi
  · refine .inr ?_
    rw [← hhome]
    exact h.mem_code_of_instr hi

/-! ## 3. From block to block -/

theorem takes_settle (h : Built p s) {st : Station} (hst : h.Shows w st b π)
    (hπ : (h.play w).Path (b :: π)) {br : Branch} (hbr : br ∈ p.jumps b) :
    w.takes st.tape.vals (s.graph.settleBranch br) = (h.play w).takes (b :: π) br := by
  unfold World.takes Play.takes Graph.settleBranch
  cases hc : br.cond with
  | none => rfl
  | some o =>
    obtain ⟨hknown, havail⟩ := h.conds hbr hc
    have hm := h.models_play w
    obtain ⟨hav, hsame, -⟩ := (h.drawn.sound hm).resolve h.steady (havail hm)
    show (w.operand st.tape.vals (s.graph.resolve o)).isTrue = ((h.meaning w).mean o (b :: π)).isTrue
    rw [show (h.meaning w).mean o (b :: π) = _ from (hsame π hπ).symm]
    congr 1
    cases hres : s.graph.resolve o with
    | lit c => rfl
    | undef ty => rfl
    | value u => exact hst.vals (h.steady.anchors_resolve hknown u hres) (hav u hres)

/-- **The run goes on as the play does.** -/
theorem onward_eq (h : Built p s) {st : Station} (hst : h.Shows w st b π)
    (hπ : (h.play w).Path (b :: π)) :
    s.graph.onward w st =
      ((h.play w).next (b :: π)).map fun c => s.graph.visit w (some b) c st.tape := by
  unfold Graph.onward Play.next
  rw [hst.block, h.branches, List.find?_map, List.find?_congr fun br hbr =>
    show (w.takes st.tape.vals ∘ s.graph.settleBranch) br = _ from h.takes_settle hst hπ hbr,
    Option.map_map, Option.map_map]
  rfl

/-- **One step**: where the play goes on, so does the run. -/
theorem shows_next (h : Built p s) (hcomplete : s.graph.Complete) {st : Station} {c : BlockId}
    (hst : h.Shows w st b π) (hπ : (h.play w).Path (b :: π))
    (hnext : (h.play w).next (b :: π) = some c) :
    h.Shows w (s.graph.visit w (some b) c st.tape) c (b :: π) := by
  refine h.shows_visit hcomplete (Play.path_of_next hπ hnext) rfl hst.trace
    fun {q ρ} e {u} hu hdom => ?_
  cases e
  exact hst.vals hu hdom

theorem shows_setOut (h : Built p s) (hcomplete : s.graph.Complete) :
    h.Shows w (s.graph.setOut w) Plan.entry [] := by
  unfold Graph.setOut
  rw [h.entry]
  exact h.shows_visit hcomplete .entry rfl rfl fun e => by cases e

/-- **Every run is a play.** -/
theorem shows_stationAt (h : Built p s) (hcomplete : s.graph.Complete) (w : World) (n : Nat) :
    ∃ b π, (h.play w).Goes [Plan.entry] (b :: π) ∧ h.Shows w (s.graph.stationAt w n) b π := by
  induction n with
  | zero => exact ⟨Plan.entry, [], .refl, h.shows_setOut hcomplete⟩
  | succ n ih =>
    obtain ⟨b, π, hgo, hst⟩ := ih
    have hπ : (h.play w).Path (b :: π) := hgo.path .entry
    unfold Graph.stationAt
    rw [h.onward_eq hst hπ]
    cases hnext : (h.play w).next (b :: π) with
    | none => exact ⟨b, π, hgo, hst⟩
    | some c => exact ⟨c, b :: π, hgo.step hnext, h.shows_next hcomplete hst hπ hnext⟩

/-- **Every play is a run.** -/
theorem shows_of_goes (h : Built p s) (hcomplete : s.graph.Complete)
    (hgo : (h.play w).Goes [Plan.entry] π) :
    ∃ b ρ, π = b :: ρ ∧ h.Shows w (s.graph.stationAt w ρ.length) b ρ := by
  induction hgo with
  | refl => exact ⟨Plan.entry, [], rfl, h.shows_setOut hcomplete⟩
  | @step π c hgo hnext ih =>
    obtain ⟨b, ρ, rfl, hst⟩ := ih
    have hπ : (h.play w).Path (b :: ρ) := hgo.path .entry
    refine ⟨c, b :: ρ, rfl, ?_⟩
    show h.Shows w ((s.graph.onward w _).getD _) c (b :: ρ)
    rw [h.onward_eq hst hπ, hnext]
    exact h.shows_next hcomplete hst hπ hnext

/-- The graph begins with some events if the play does. -/
theorem emits_iff (h : Built p s) (hcomplete : s.graph.Complete) {t : List Event} :
    s.graph.Emits w t ↔ ∃ π, (h.play w).Goes [Plan.entry] π ∧ t <+: (h.play w).hist π := by
  constructor
  · rintro ⟨n, ht⟩
    obtain ⟨b, π, hgo, hst⟩ := h.shows_stationAt hcomplete w n
    rw [hst.trace] at ht
    exact ⟨b :: π, hgo, ht⟩
  · rintro ⟨π, hgo, ht⟩
    obtain ⟨b, ρ, rfl, hst⟩ := h.shows_of_goes hcomplete hgo
    rw [← hst.trace] at ht
    exact ⟨ρ.length, ht⟩

/-- The graph comes to an end if the play does. -/
theorem halts_iff (h : Built p s) (hcomplete : s.graph.Complete) {t : List Event} :
    s.graph.Halts w t ↔
      ∃ π, (h.play w).Goes [Plan.entry] π ∧ (h.play w).next π = none ∧ (h.play w).hist π = t := by
  constructor
  · rintro ⟨n, hover, ht⟩
    obtain ⟨b, π, hgo, hst⟩ := h.shows_stationAt hcomplete w n
    rw [h.onward_eq hst (hgo.path .entry), Option.map_eq_none_iff] at hover
    exact ⟨b :: π, hgo, hover, hst.trace.symm.trans ht⟩
  · rintro ⟨π, hgo, hover, ht⟩
    obtain ⟨b, ρ, rfl, hst⟩ := h.shows_of_goes hcomplete hgo
    refine ⟨ρ.length, ?_, hst.trace.trans ht⟩
    rw [h.onward_eq hst (hgo.path .entry), hover]
    rfl

end Built

end BitFlow
