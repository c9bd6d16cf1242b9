import BitFlow.Proofs.Lower.Stmt

/-!
# Lowering programs

A program is lowered from a plan with one blank block on. In the end all blocks are sealed and no
loop is open.

Main statement: `Lower.ends_program`.
-/

namespace BitFlow

/-! ## 1. The start -/

/-- The plan before a program is lowered: one blank block. -/
def Plan.start : Plan where
  toDraft := .empty
  count := 1
  dead := fun _ => false
  closed := fun _ => false
  code := fun _ => []
  jumps := fun _ => []

theorem Plan.not_edge_start (q c : BlockId) : ¬ Plan.start.Edge q c := by
  rintro ⟨br, hbr, -⟩
  cases hbr

/-- **The empty graph is built to the empty plan.** -/
theorem Built.start (prog : Program) (s : Settings) :
    Built .start (Lowering.start prog s).tracked where
  drawn := .fresh prog.name prog.vars s.nameValues
  anchored := .fresh prog.name
  wired := ⟨fun h => absurd h (Plan.not_edge_start _ _), fun h => absurd h (Plan.not_edge_start _ _)⟩
  entry := rfl
  size := rfl
  block := fun {c y} h => by
    obtain ⟨_ | n⟩ := c
    · cases h
      exact ⟨rfl, rfl, rfl⟩
    · cases h
  bare := fun _ => ⟨rfl, rfl, rfl, fun _ => rfl⟩
  instr := fun _ => rfl
  branches := fun c => by
    obtain ⟨_ | n⟩ := c <;> rfl
  ordered := fun _ => .nil
  operands := fun h => by cases h
  conds := fun h => by cases h
  typed := fun h => by cases h

/-! ## 2. Programs -/

namespace Lower

/-- **A program was lowered** from the blank entry `p₁` on up to the block `b` of `p₂`. -/
structure ProgramMade (w : World) (T : Prop) (prog : Program) (b : BlockId) (p₁ : Plan)
    (l₁ : Lowering) (p₂ : Plan) (l₂ : Lowering) : Prop where
  start : Good Plan.entry p₁ l₁
  blank : Blank p₁ Plan.entry
  live : p₁.dead Plan.entry = false
  single : p₁.count = 1
  outermost : l₁.loops = []
  ends : Good b p₂ l₂
  spans : Spans Plan.entry p₁ l₁ [] b p₂ l₂
  vars : l₂.vars = prog.vars
  follows : T → Simulates w .skip (w.execAll prog.ports prog.body) Plan.entry p₁ l₁ [] b p₂ l₂

/-- The lowering with the block noted in which the program ends. -/
def noteExit (l : Lowering) (b : BlockId) : Lowering :=
  { l with bench := { l.bench with graph := { l.bench.graph with exit := some b } } }

variable {w : World} {T : Prop} {prog : Program}

/-- **A program is lowered**, or refused. -/
theorem ends_program (w : World) (s : Settings) (hT : T → Declared prog)
    (ht : T → Stmt.allTyped prog.vars prog.ports prog.body = true) :
    Ends (program prog) (.start prog s) Refused fun b l' => ∃ p₁ l₁ p₂ l₂,
      ProgramMade w T prog b p₁ l₁ p₂ l₂ ∧ l' = noteExit l₂ b := by
  have hstart := Built.start prog s
  obtain ⟨y, hy⟩ := hstart.known (b := Plan.entry) (Nat.zero_lt_one)
  have hopen : y.isSealed = false := (hstart.block hy).2.1
  unfold program
  rw [Ends.bind_iff, Ends.get_iff, Ends.bind_iff, ends_edit]
  refine (Edit.ends_block hy).2 ?_
  rw [if_pos (by rw [hopen]; rfl), Ends.bind_iff]
  refine ends_sealBlock hstart Nat.zero_lt_one rfl fun l₁ R hl₁ hloops₁ => ?_
  have hgood : Good Plan.entry (Plan.start.close Plan.entry R) l₁ := by
    refine ⟨hl₁.built, Nat.zero_lt_one, Plan.closed_close_self .., rfl,
      fun _ => ⟨Plan.reached_entry _, fun f hf => ?_⟩, fun f hf => ?_⟩ <;>
    · rw [hloops₁] at hf
      cases hf
  rw [Ends.bind_iff, Ends.get_iff, Ends.bind_iff, hloops₁]
  refine (lowers_lowerStmts (w := w) hT prog.body Lowers.pure ht hgood hl₁.vars).mono
    fun b l₂ ⟨p₂, extra, hg₂, hs₂, hsim⟩ => ?_
  have hextra := hs₂.outside hloops₁
  subst hextra
  exact ⟨_, l₁, p₂, l₂, ⟨hgood, ⟨rfl, rfl, fun _ => rfl⟩, rfl, rfl, hloops₁, hg₂, hs₂,
    hs₂.leads.vars.trans hl₁.vars, hsim⟩, rfl⟩

/-- All blocks of a lowered program are sealed. -/
theorem ProgramMade.closed {b : BlockId} {p₁ p₂ : Plan} {l₁ l₂ : Lowering}
    (h : ProgramMade w T prog b p₁ l₁ p₂ l₂) {c : BlockId} (hc : c.index < p₂.count) :
    p₂.closed c = true := by
  by_cases he : c = Plan.entry
  · rw [he, h.spans.closed]
    exact h.start.closed
  · refine h.spans.fresh c ?_ hc
    rw [h.single]
    exact Nat.one_le_iff_ne_zero.2 fun e => he (BlockId.eq_of_index e)

/-- No loop is open in the end. -/
theorem ProgramMade.loops {b : BlockId} {p₁ p₂ : Plan} {l₁ l₂ : Lowering}
    (h : ProgramMade w T prog b p₁ l₁ p₂ l₂) : l₂.loops = [] := by
  rw [h.spans.loops, h.outermost]
  rfl

end Lower

end BitFlow
