import BitFlow.Proofs.Lower.Leaf
import Mathlib.Data.List.Infix

/-!
# Lowering jumps

After `break` and `continue` lowering goes on in a dead block. A break is noted with its loop and
gets its edge when the loop is finished; a continue lowers the step of the loop and jumps to the
head.

Main statements: `Lower.lowers_breakLoop`, `Lower.lowers_continueLoop`.
-/

namespace BitFlow

/-! ## 1. Jumps of a plan -/

namespace Plan

variable (p : Plan) (q : BlockId) (cond : Option Operand) (c : BlockId)

theorem jump_of_live {p : Plan} {q : BlockId} (h : p.dead q = false) :
    p.jump q cond c = p.link q cond c := if_neg (by rw [h]; exact Bool.false_ne_true)

@[simp] theorem count_jump : (p.jump q cond c).count = p.count := by
  unfold jump
  split <;> rfl

@[simp] theorem code_jump : (p.jump q cond c).code = p.code := by
  unfold jump
  split <;> rfl

@[simp] theorem writes_jump : (p.jump q cond c).writes = p.writes := by
  unfold jump
  split <;> rfl

@[simp] theorem dead_jump : (p.jump q cond c).dead = p.dead := by
  unfold jump
  split <;> rfl

@[simp] theorem closed_jump : (p.jump q cond c).closed = p.closed := by
  unfold jump
  split <;> rfl

@[simp] theorem roles_jump : (p.jump q cond c).roles = p.roles := by
  unfold jump
  split <;> rfl

variable {p q cond c} {a b : BlockId}

theorem jumps_jump_self (h : p.dead q = false) :
    (p.jump q cond c).jumps q = p.jumps q ++ [⟨cond, c⟩] := by
  rw [jump_of_live _ _ h, jumps_link_self]

theorem jumps_jump (p : Plan) (q : BlockId) (cond : Option Operand) (c a : BlockId) :
    p.jumps a <+: (p.jump q cond c).jumps a := by
  unfold jump
  split
  · exact List.prefix_rfl
  · by_cases e : a = q
    · rw [e, jumps_link_self]
      exact List.prefix_append _ _
    · rw [jumps_link_of_ne e]

theorem edge_jump (h : p.Edge a b) : (p.jump q cond c).Edge a b := by
  unfold jump
  split
  · exact h
  · exact edge_link.2 (.inl h)

theorem edge_jump_self (h : p.dead q = false) : (p.jump q cond c).Edge q c := by
  rw [jump_of_live _ _ h]
  exact edge_link.2 (.inr ⟨rfl, rfl⟩)

end Plan

namespace Lower

variable {w : World} {vars : List Variable} {T : Prop} {step : Act} {b : BlockId} {p p₁ : Plan}
  {l l₁ : Lowering}

/-! ## 2. Dead ends -/

/-- **Lowering goes on in a dead block**, once the block at hand is finished. -/
theorem ends_deadEnd (h : Good b p l) (extra : List BlockId) (hl : Leads p l p₁ l₁)
    (hloops : l₁.loops = withBreaks extra l.loops) (hout : l.loops = [] → extra = [])
    (hextra : ∀ c ∈ extra, c = b) (hcount : p₁.count = p.count)
    (hframe : ∀ c, c ≠ b → SameBlock p p₁ c) (hcode : p₁.code b = p.code b)
    (hdead : p₁.dead b = p.dead b) (hclosed : p₁.closed b = p.closed b)
    (hopen : ∀ f ∈ l₁.loops, OpenLoop p₁ f) :
    Ends deadBlock l₁ Refused fun b' l' => ∃ p', Good b' p' l' ∧ Spans b p l extra b' p' l' ∧
      SameBlock p₁ p' b ∧ b' ≠ b := by
  refine ends_deadBlock hl.built fun l' roles hl' hloops' => ?_
  have hsame : ∀ {c : BlockId}, c.index < p₁.count →
      SameBlock p₁ ((p₁.block true).close ⟨p₁.count⟩ roles) c := fun hc =>
    (SameBlock.block hc true).trans (.close (fun e => absurd hc (by rw [e]; exact Nat.lt_irrefl _)) _)
  have hb : b.index < p₁.count := by
    rw [hcount]
    exact h.here
  have hne : (⟨p₁.count⟩ : BlockId) ≠ b := fun e => absurd hb (by rw [← e]; exact Nat.lt_irrefl _)
  have hdeadNew : ((p₁.block true).close ⟨p₁.count⟩ roles).dead ⟨p₁.count⟩ = true :=
    p₁.dead_block_self true
  refine ⟨_, ⟨hl'.built, Nat.lt_succ_self _, Plan.closed_close_self _ _ _,
    (hl.built.bare (Nat.le_refl _)).2.2.1, fun hlive => ?_, fun f hf => ?_⟩,
    ⟨hl.trans hl', hloops'.trans hloops, hout, ?_, fun c hc hcb => ?_, (hsame hb).dead.trans hdead,
    (hsame hb).closed.trans hclosed, ?_, fun c h1 h2 => ?_, .inr (Nat.le_of_eq hcount.symm),
    fun hlive => ?_, fun c hc => .inl (hextra c hc)⟩, hsame hb, hne⟩
  · rw [hdeadNew] at hlive
    cases hlive
  · rw [hloops'] at hf
    have ho := hopen f hf
    refine ⟨ho.mono (Nat.le_succ _) ⟨(hsame ho.known).closed, (hsame ho.known).dead⟩
      (fun c hc => ?_) fun _ _ he => he, fun hm => ?_⟩
    · have hc := hsame (ho.breaks c hc).1
      exact ⟨hc.dead, hc.jumps⟩
    · exact absurd (ho.breaks _ hm).1 (Nat.lt_irrefl _)
  · show p.count ≤ p₁.count + 1
    omega
  · exact (hframe c hcb).trans (hsame (by rw [hcount]; exact hc))
  · rw [(hsame hb).code, hcode]
  · have : c = ⟨p₁.count⟩ := by
      refine BlockId.eq_of_index ?_
      change c.index < p₁.count + 1 at h2
      show c.index = p₁.count
      omega
    rw [this]
    exact Plan.closed_close_self _ _ _
  · rw [hdeadNew] at hlive
    cases hlive

/-! ## 3. Leaving a loop -/

/-- **Out of the innermost loop.** -/
theorem lowers_breakLoop : Lowers w vars T step (fun _ μ => .done .leave μ) breakLoop := by
  intro b p l h _
  refine ends_breakLoop (fun hnone => ?_) (fun _ => tolerates_refused rfl)
    (fun y f rest hy hu hfr => ?_) fun y hy hu _ => ?_
  · obtain ⟨y, hy⟩ := h.built.known h.here
    cases hy.symm.trans hnone
  · -- a live block is noted as a break of the loop
    have hd : p.dead b = false := (h.built.block hy).1.symm.trans hu
    obtain ⟨hreach, hheads⟩ := h.live hd
    have hnoted : Leads p l p { l with loops := { f with breaks := f.breaks ++ [b] } :: rest } :=
      ⟨h.built, .refl _ _, rfl, rfl⟩
    refine (ends_deadEnd h [b] hnoted ?_ (fun e => ?_)
      (fun c hc => List.mem_singleton.1 hc) rfl (fun c _ => .refl p c) rfl rfl rfl
      fun f' hf' => ?_).mono fun b' l' ⟨p', hg, hs, hb, _⟩ => ?_
    · rw [hfr]
      rfl
    · rw [hfr] at e
      cases e
    · rcases List.mem_cons.1 hf' with rfl | hf'
      · have hf : f ∈ l.loops := by
          rw [hfr]
          exact List.mem_cons_self
        obtain ⟨ho, -⟩ := h.loops f hf
        refine ⟨ho.known, ho.waits, ho.inner, fun c hc => ?_⟩
        rcases List.mem_append.1 hc with hc | hc
        · exact ho.breaks c hc
        · rw [List.mem_singleton.1 hc]
          exact ⟨h.here, hd, hreach, h.free, hheads f hf⟩
      · refine (h.loops f' ?_).1
        rw [hfr]
        exact List.mem_cons_of_mem _ hf'
    · refine ⟨p', [b], hg, hs, fun _ vars P hP hagree n π μ hat => ?_⟩
      exact .here ⟨b, List.mem_singleton_self b, hat.same hb.code hb.writes⟩
  · have hd : p.dead b = true := (h.built.block hy).1.symm.trans hu
    refine (ends_deadEnd h [] (.refl h.built) (withBreaks_nil _).symm (fun _ => rfl)
      (fun c hc => by cases hc) rfl (fun c _ => .refl p c) rfl rfl rfl
      fun f hf => (h.loops f hf).1).mono fun b' l' ⟨p', hg, hs, _, _⟩ => ?_
    refine ⟨p', [], hg, hs, fun _ vars P hP hagree n π μ hat => ?_⟩
    have hlive := hat.live hP hagree (Nat.lt_of_lt_of_le h.here hs.count)
    rw [hs.dead, hd] at hlive
    cases hlive

/-! ## 4. On to the next round -/

/-- **On to the next round of the innermost loop**, by way of its step. -/
theorem lowers_continueLoop {advance : BlockId → Lower BlockId}
    (ha : Lowers w vars T .skip step advance) :
    Lowers w vars T step (fun _ μ => .done .again μ) (continueLoop advance) := by
  intro b p l h hv
  refine ends_continueLoop (fun _ => tolerates_refused rfl) fun f rest hfr => ?_
  refine (ha h hv).mono fun last l₁ ⟨p₁, e₁, hg₁, hs₁, hsim₁⟩ => ?_
  -- the loop is still open, with further breaks
  have hf : { f with breaks := f.breaks ++ e₁ } ∈ l₁.loops := by
    rw [hs₁.loops, hfr]
    exact List.mem_cons_self
  obtain ⟨ho, hlast⟩ := hg₁.loops _ hf
  refine ends_addEdge hg₁.built hg₁.here ho.known (fun hd => ?_) fun l₂ hl₂ hloops₂ => ?_
  · obtain ⟨hreach, hheads⟩ := hg₁.live hd
    exact ⟨hreach, hheads _ hf, ho.inner, ho.waits, fun o ho => by cases ho⟩
  refine (ends_deadEnd hg₁ [] hl₂ (hloops₂.trans (withBreaks_nil _).symm) (fun _ => rfl)
    (fun c hc => by cases hc) (Plan.count_jump ..) (fun c hc => .jump hc _ _)
    (by rw [Plan.code_jump]) (by rw [Plan.dead_jump]) (by rw [Plan.closed_jump]) fun g hg => ?_).mono
    fun b' l' ⟨p', hg', hs', hsame, hne⟩ => ?_
  · rw [hloops₂] at hg
    obtain ⟨hog, hnot⟩ := hg₁.loops g hg
    refine hog.mono (Nat.le_of_eq (Plan.count_jump ..).symm) (by simp) (fun c hc => ⟨by simp, ?_⟩)
      fun _ _ he => Plan.edge_jump he
    exact (SameBlock.jump (fun e : c = last => hnot (e ▸ hc)) _ _).jumps
  · refine ⟨p', e₁ ++ [], hg', hs₁.trans h.here hs', fun ht vars P hP hagree n π μ hat k => ?_⟩
    have hsecond := hagree.second hs₁ hg₁
    have hfollow := hsim₁ ht P (hP.back hs'.leads) (hagree.first hs₁ hg₁ hs') k hat
    refine hfollow.followsStep rfl (fun {π' μ'} hat' => ?_) ?_ .here
    · -- the step is over, and control jumps to the head
      have hlive : p₁.dead last = false := by
        rw [← hat'.live hP hsecond (Nat.lt_of_lt_of_le hg₁.here hs'.count), hsame.dead,
          Plan.dead_jump]
      obtain ⟨π'', hgo, henter⟩ := hat'.arrives (c := f.head)
        ((hsecond.code last (.inl rfl) (Nat.lt_of_lt_of_le hg₁.here hs'.count) hne.symm).trans
          (hsame.code.trans (by rw [Plan.code_jump])))
        ((hsecond.writes last (.inl rfl) (Nat.lt_of_lt_of_le hg₁.here hs'.count) hne.symm).trans
          (hsame.writes.trans (by rw [Plan.writes_jump])))
        (by
          rw [hsecond.jumps last (.inl rfl) (Nat.lt_of_lt_of_le hg₁.here hs'.count) hne.symm
            (fun hm => by cases hm), hsame.jumps, Plan.jumps_jump_self hlive, hg₁.free]
          exact List.prefix_rfl)
      exact ⟨π'', hgo, f.head, by rw [hfr]; rfl, henter⟩
    · rintro π' μ' ⟨c, hc, hat'⟩
      obtain ⟨h1, h2⟩ := hs₁.extra_known hg₁ hc
      have hc' := hs'.frame c h1 h2
      exact .here ⟨c, List.mem_append_left _ hc, hat'.same hc'.code hc'.writes⟩

end Lower

end BitFlow
