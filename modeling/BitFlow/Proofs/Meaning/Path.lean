import BitFlow.Proofs.Graph.Trail
import BitFlow.Proofs.Reaching.Kept

/-!
# What values mean along paths

A `Meaning` says what each value and each variable holds at the end of a path through the control
flow. What a phi means does not depend on its operands: it holds what its variable held when its
block was entered. A path is the list of its blocks, the last one first.

Main statement: `Meaning.Superfluous.replace_phi` -- where all operands of a phi are one and the
same operand or the phi itself, that operand means the same as the phi at the end of every block
that is reached through the block of the phi only, and it is not computed there.
-/

namespace BitFlow

/-! ## 1. Meanings and paths -/

/-- What values and variables hold along the paths of a control flow. -/
structure Meaning (T : Type) where
  entry : BlockId
  edge : BlockId → BlockId → Prop
  /-- The block in which a value gets its content. -/
  home : ValueId → BlockId
  /-- What a value holds at the end of a path. -/
  val : ValueId → List BlockId → T
  lit : Literal → T
  undef : Ty → T
  /-- What a variable holds at the end of a path. -/
  store : List BlockId → VarId → T
  /-- A value changes in its own block only. -/
  val_away : ∀ {v q π}, home v ≠ q → val v (q :: π) = val v π

namespace Meaning

variable {T : Type} (m : Meaning T)

/-- The paths from the entry, the last block first. -/
abbrev Path (π : List BlockId) : Prop := Trail m.entry m.edge π

/-- What an operand holds at the end of a path. -/
def mean : Operand → List BlockId → T
  | .value v, π => m.val v π
  | .lit c, _ => m.lit c
  | .undef ty, _ => m.undef ty

/-- Every path to `b` passes through `h`. -/
def Dom (h b : BlockId) : Prop := ∀ π, m.Path (b :: π) → h ∈ b :: π

/-- Every path to `b` passes through the block in which the operand gets its content. -/
def Avail (o : Operand) (b : BlockId) : Prop := ∀ v, o = .value v → m.Dom (m.home v) b

/-- Two operands hold the same at the end of every path to `b`. -/
def Same (o o' : Operand) (b : BlockId) : Prop :=
  ∀ π, m.Path (b :: π) → m.mean o (b :: π) = m.mean o' (b :: π)

/-- The phi `v` of `x` in `b` holds what `x` held when `b` was entered. -/
structure IsPhi (v : ValueId) (b : BlockId) (x : VarId) : Prop where
  home : m.home v = b
  val : ∀ π, m.Path (b :: π) → m.val v (b :: π) = m.store π x

variable {m}

theorem Dom.refl (b : BlockId) : m.Dom b b := fun _ _ => List.mem_cons_self

/-- What holds on all paths to a block need not be looked at where there are none. -/
theorem avail_lit (c : Literal) (b : BlockId) : m.Avail (.lit c) b := fun _ h => by cases h

theorem avail_undef (ty : Ty) (b : BlockId) : m.Avail (.undef ty) b := fun _ h => by cases h

theorem avail_value {v : ValueId} {b : BlockId} (h : m.Dom (m.home v) b) :
    m.Avail (.value v) b := by
  rintro w hw
  cases hw
  exact h

theorem Same.refl (o : Operand) (b : BlockId) : m.Same o o b := fun _ _ => rfl

theorem Same.trans {o o' o'' : Operand} {b : BlockId} (h : m.Same o o' b)
    (h' : m.Same o' o'' b) : m.Same o o'' b := fun π hπ => (h π hπ).trans (h' π hπ)

/-- An operand holds what it held before blocks other than its own. -/
theorem mean_append {o : Operand} {l : List BlockId} (h : ∀ v, o = .value v → m.home v ∉ l)
    (π : List BlockId) : m.mean o (l ++ π) = m.mean o π := by
  cases o with
  | lit c => rfl
  | undef ty => rfl
  | value v =>
    have hv := h v rfl
    induction l with
    | nil => rfl
    | cons c l ih =>
      rw [List.mem_cons, not_or] at hv
      show m.val v (c :: (l ++ π)) = _
      rw [m.val_away hv.1]
      exact ih (fun w hw => by cases hw; exact hv.2) hv.2

/-- What is available where an edge starts is available where it leads, and holds the same if it is
    not computed there. -/
theorem mean_step {o : Operand} {b : BlockId} (h : ∀ v, o = .value v → m.home v ≠ b)
    (π : List BlockId) : m.mean o (b :: π) = m.mean o π := by
  refine mean_append (l := [b]) (fun v hv => ?_) π
  rw [List.mem_singleton]
  exact h v hv

/-! ## 2. Superfluous phis -/

section Replace

variable {v : ValueId} {b : BlockId} {x : VarId} {o : Operand}

/-- Why the phi `v` of `x` in `b` is superfluous: whatever edge leads to `b`, the operand for it is
    `o` or `v` itself, and it holds what `x` does; if `b` is the entry, `o` is no value and is what
    variables are at the start. -/
structure Superfluous (m : Meaning T) (v : ValueId) (b : BlockId) (x : VarId) (o : Operand) :
    Prop where
  phi : m.IsPhi v b x
  other : o ≠ .value v
  edge : ∀ {q}, m.edge q b → ∃ a, (a = .value v ∨ a = o) ∧ m.Avail a q ∧
    ∀ π, m.Path (q :: π) → m.mean a (q :: π) = m.store (q :: π) x
  entry : b = m.entry → (∀ w, o ≠ .value w) ∧ m.mean o [b] = m.store [] x

/-- Where `b` is reached for the first time, the operand is `o`, so `o` got its content before. -/
theorem Superfluous.home_before (h : m.Superfluous v b x o) {w : ValueId} (ho : o = .value w)
    {r : List BlockId} (hr : m.Path (b :: r)) (hb : b ∉ r) : m.home w ∈ r := by
  cases hr with
  | entry => exact absurd ho ((h.entry rfl).1 w)
  | @step q _ π hπ he =>
    obtain ⟨a, ha, hav, -⟩ := h.edge he
    rcases ha with rfl | rfl
    · -- the phi itself is not available before its block
      have := hav v rfl π hπ
      rw [h.phi.home] at this
      exact absurd this hb
    · exact hav w ho π hπ

/-- On the way from `b` to a block that is reached through `b` only, `o` gets no new content. -/
theorem Superfluous.home_not_mem (h : m.Superfluous v b x o) {c : BlockId} (hc : m.Dom b c)
    {w : ValueId} (ho : o = .value w) {l π : List BlockId} (hπ : m.Path (l ++ b :: π))
    (hhead : (l ++ [b]).head? = some c) (hl : b ∉ l) : m.home w ∉ l ++ [b] := by
  -- the first arrival at `b` on this path
  obtain ⟨l₁, r, hsplit, hr⟩ := Trail.split_last (List.mem_cons_self (a := b) (l := π))
  have hfirst : m.Path (b :: r) := by
    have := hπ.tail
    rw [hsplit] at this
    exact this.tail
  have hmem := h.home_before ho hfirst hr
  intro hin
  rcases List.mem_append.1 hin with hin | hin
  · -- a path to `c` that avoids `b`: on the first way to the home of `w`, then on
    obtain ⟨s₁, s₂, rfl⟩ := List.append_of_mem hin
    obtain ⟨r₁, r₂, rfl⟩ := List.append_of_mem hmem
    have hp : m.Path (m.home w :: r₂) := by
      have : m.Path ((b :: r₁) ++ m.home w :: r₂) := hfirst
      exact this.tail
    have hq : m.Path (s₁ ++ m.home w :: r₂) := by
      have : m.Path (s₁ ++ m.home w :: (s₂ ++ b :: π)) := by
        rw [List.append_assoc] at hπ
        exact hπ
      exact this.splice hp
    have havoid : b ∉ s₁ ++ m.home w :: r₂ := by
      simp only [List.mem_append, List.mem_cons, not_or] at hl hr ⊢
      exact ⟨hl.1, hl.2.1, hr.2.2⟩
    cases s₁ with
    | nil =>
      have e : m.home w = c := Option.some.inj hhead
      rw [e] at hq havoid
      exact havoid (hc _ hq)
    | cons d s₁ =>
      have e : d = c := Option.some.inj hhead
      subst e
      exact havoid (hc _ hq)
  · rw [List.mem_singleton.1 hin] at hmem
    exact hr hmem

/-- Along one path to a block that is reached through `b` only, `o` is there and holds what the phi
    holds. -/
theorem Superfluous.mean_eq (h : m.Superfluous v b x o) (n : Nat) :
    ∀ {c π}, (c :: π : List BlockId).length ≤ n → m.Dom b c → m.Path (c :: π) →
      (∀ w, o = .value w → m.home w ∈ c :: π) ∧ m.mean o (c :: π) = m.val v (c :: π) := by
  induction n with
  | zero => intro c π hn; exact absurd hn (by simp)
  | succ n ih =>
    intro c π hn hc hπ
    -- the last arrival at `b` on this path
    obtain ⟨l, r, hsplit, hl⟩ := List.eq_append_cons_of_mem (hc π hπ)
    rw [hsplit] at hπ hn ⊢
    have hhead : (l ++ [b]).head? = some c := by
      cases l with
      | nil => exact (congrArg List.head? hsplit).symm
      | cons d l => exact (congrArg List.head? hsplit).symm
    have haway : ∀ w, o = .value w → m.home w ∉ l ++ [b] :=
      fun w hw => h.home_not_mem hc hw hπ hhead hl
    have hnb : ∀ w, o = .value w → m.home w ≠ b := fun w hw e =>
      haway w hw (List.mem_append_right l (List.mem_singleton.2 e))
    have hnl : ∀ w, o = .value w → m.home w ∉ l := fun w hw hm =>
      haway w hw (List.mem_append_left _ hm)
    have hv : m.val v (l ++ b :: r) = m.val v (b :: r) := by
      refine mean_append (o := .value v) (fun w hw => ?_) (b :: r)
      cases hw
      rw [h.phi.home]
      exact hl
    have hpath : m.Path (b :: r) := hπ.tail
    -- so what counts is the arrival at `b`
    suffices H : (∀ w, o = .value w → m.home w ∈ b :: r) ∧
        m.mean o (b :: r) = m.val v (b :: r) by
      refine ⟨fun w hw => List.mem_append_right l (H.1 w hw), ?_⟩
      rw [mean_append hnl, H.2, hv]
    rw [h.phi.val r hpath]
    cases hpath with
    | entry =>
      obtain ⟨h1, h2⟩ := h.entry rfl
      exact ⟨fun w hw => absurd hw (h1 w), h2⟩
    | @step q _ π' hq he =>
      rw [mean_step hnb]
      obtain ⟨a, rfl | rfl, hav, hmean⟩ := h.edge he
      · -- the phi itself: by induction, since the path to the predecessor is shorter
        have hdom : m.Dom b q := by
          have := hav v rfl
          rwa [h.phi.home] at this
        obtain ⟨i1, i2⟩ := ih (by simp at hn ⊢; omega) hdom hq
        exact ⟨fun w hw => List.mem_cons_of_mem _ (i1 w hw), i2.trans (hmean π' hq)⟩
      · exact ⟨fun w hw => List.mem_cons_of_mem _ (hav w hw π' hq), hmean π' hq⟩

/-- **A superfluous phi may be replaced**: at the end of every block that is reached through its
    block only, `o` is available and holds the same, and it is not computed there. -/
theorem Superfluous.replace_phi (h : m.Superfluous v b x o) {c : BlockId} (hc : m.Dom b c) :
    m.Avail o c ∧ m.Same o (.value v) c ∧
      ∀ w π, o = .value w → m.Path (c :: π) → m.home w ≠ c := by
  refine ⟨fun w hw π hπ => (h.mean_eq _ (Nat.le_refl _) hc hπ).1 w hw,
    fun π hπ => (h.mean_eq _ (Nat.le_refl _) hc hπ).2, fun w π hw hπ e => ?_⟩
  obtain ⟨l, r, hsplit, hl⟩ := List.eq_append_cons_of_mem (hc π hπ)
  have hhead : (l ++ [b]).head? = some c := by
    cases l with
    | nil => exact (congrArg List.head? hsplit).symm
    | cons d l => exact (congrArg List.head? hsplit).symm
  refine h.home_not_mem hc hw (hsplit ▸ hπ) hhead hl ?_
  rw [e]
  exact List.mem_of_mem_head? hhead

end Replace

end Meaning

end BitFlow
