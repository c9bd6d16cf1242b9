import BitFlow.Store.Focus

/-!
# How computations end

`Ends x s R Q` says how the computation `x` ends when it is started in the state `s`: with an
answer and a state that satisfy `Q`, or with a fault that satisfies `R`. One rule per way of
putting computations together; `Ends.seq` and `Ends.focus` carry all that follows.

Main statement: `Ends.forM` -- what every round of a loop keeps holds when the loop is over.
-/

namespace BitFlow

variable {ε σ τ α β : Type}

/-- The computation `x`, started in `s`, ends with `Q` of its answer and state, or with a fault
    that satisfies `R`. -/
def Ends (x : EStateM ε σ α) (s : σ) (R : ε → Prop) (Q : α → σ → Prop) : Prop :=
  match x.run s with
  | .ok a t => Q a t
  | .error e _ => R e

namespace Ends

variable {s : σ} {R : ε → Prop} {Q : α → σ → Prop}

/-! ## 1. Answers and faults -/

theorem of_ok {x : EStateM ε σ α} {a : α} {t : σ} (h : Ends x s R Q) (hx : x.run s = .ok a t) :
    Q a t := by
  unfold Ends at h
  rw [hx] at h
  exact h

theorem of_error {x : EStateM ε σ α} {e : ε} {t : σ} (h : Ends x s R Q)
    (hx : x.run s = .error e t) : R e := by
  unfold Ends at h
  rw [hx] at h
  exact h

/-- A computation of which the run is known. -/
theorem run_iff {x : EStateM ε σ α} {a : α} {t : σ} (hx : x.run s = .ok a t) :
    Ends x s R Q ↔ Q a t := by
  unfold Ends
  rw [hx]

/-- A computation that never fails has a run. -/
theorem exists_ok {x : EStateM ε σ α} (h : Ends x s (fun _ => False) Q) :
    ∃ a t, x.run s = .ok a t ∧ Q a t := by
  cases hx : x.run s with
  | ok a t => exact ⟨a, t, rfl, h.of_ok hx⟩
  | error e t => exact (h.of_error hx).elim

/-- A computation that never fails does not fail in a way that is not tolerated. -/
theorem never {x : EStateM ε σ α} (h : Ends x s (fun _ => False) Q) : Ends x s R Q := by
  obtain ⟨a, t, hx, ha⟩ := h.exists_ok
  exact (run_iff hx).2 ha

/-- What a computation ends with may be weakened, and the run itself may be used for it. -/
theorem imp {x : EStateM ε σ α} {Q' : α → σ → Prop} (h : Ends x s R Q)
    (hQ : ∀ a t, x.run s = .ok a t → Q a t → Q' a t) : Ends x s R Q' := by
  unfold Ends at *
  cases hx : x.run s with
  | ok a t =>
    rw [hx] at h
    exact hQ a t hx h
  | error e t =>
    rw [hx] at h
    exact h

theorem mono {x : EStateM ε σ α} {Q' : α → σ → Prop} (h : Ends x s R Q)
    (hQ : ∀ a t, Q a t → Q' a t) : Ends x s R Q' :=
  h.imp fun a t _ => hQ a t

/-- Two facts about the answers. -/
theorem and {x : EStateM ε σ α} {R' : ε → Prop} {Q' : α → σ → Prop} (h : Ends x s R Q)
    (h' : Ends x s R' Q') : Ends x s R fun a t => Q a t ∧ Q' a t :=
  h.imp fun _ _ run hq => ⟨hq, h'.of_ok run⟩

/-- What holds of every answer, whatever the faults are. -/
theorem of_run {x : EStateM ε σ α} (h : ∀ a t, x.run s = .ok a t → Q a t) :
    Ends x s (fun _ => True) Q := by
  unfold Ends
  cases hx : x.run s with
  | ok a t => exact h a t hx
  | error e t => trivial

/-! ## 2. One step -/

@[simp] theorem pure_iff (a : α) : Ends (pure a : EStateM ε σ α) s R Q ↔ Q a s := Iff.rfl

@[simp] theorem throw_iff (e : ε) : Ends (throw e : EStateM ε σ α) s R Q ↔ R e := Iff.rfl

@[simp] theorem get_iff {Q : σ → σ → Prop} : Ends (get : EStateM ε σ σ) s R Q ↔ Q s s := Iff.rfl

@[simp] theorem set_iff {Q : PUnit → σ → Prop} (t : σ) :
    Ends (set t : EStateM ε σ PUnit) s R Q ↔ Q ⟨⟩ t := Iff.rfl

@[simp] theorem modify_iff {Q : PUnit → σ → Prop} (f : σ → σ) :
    Ends (modify f : EStateM ε σ PUnit) s R Q ↔ Q ⟨⟩ (f s) := Iff.rfl

/-! ## 3. Several steps -/

@[simp] theorem bind_iff (x : EStateM ε σ α) (f : α → EStateM ε σ β) {Q : β → σ → Prop} :
    Ends (x >>= f) s R Q ↔ Ends x s R fun a t => Ends (f a) t R Q := by
  unfold Ends
  rw [EStateM.run_bind]
  cases x.run s <;> rfl

theorem seq {x : EStateM ε σ α} {f : α → EStateM ε σ β} {Q : β → σ → Prop} {P : α → σ → Prop}
    (hx : Ends x s R P) (hf : ∀ a t, P a t → Ends (f a) t R Q) : Ends (x >>= f) s R Q :=
  (bind_iff x f).2 (hx.mono hf)

/-- What holds whatever comes before. -/
theorem skip {x : EStateM ε σ α} {f : α → EStateM ε σ β} {Q : β → σ → Prop}
    (h : ∀ a t, Ends (f a) t (fun _ => True) Q) : Ends (x >>= f) s (fun _ => True) Q :=
  (bind_iff x f).2 (of_run fun a t _ => h a t)

/-- Continuations that agree wherever a computation leads. -/
theorem run_bind_congr {x : EStateM ε σ α} {f g : α → EStateM ε σ β}
    (h : Ends x s (fun _ => True) fun a t => (f a).run t = (g a).run t) :
    (x >>= f).run s = (x >>= g).run s := by
  rw [EStateM.run_bind, EStateM.run_bind]
  cases hx : x.run s with
  | ok a t => exact h.of_ok hx
  | error e t => rfl

@[simp] theorem discard_iff (x : EStateM ε σ α) {Q : PUnit → σ → Prop} :
    Ends (discard x) s R Q ↔ Ends x s R fun _ t => Q ⟨⟩ t := by
  have h : (discard x : EStateM ε σ PUnit) = x >>= fun _ => pure ⟨⟩ := rfl
  rw [h, bind_iff]
  rfl

/-- A computation on a part of the state leaves the rest alone. -/
@[simp] theorem focus_iff {get : σ → τ} {set : τ → σ → σ} (x : EStateM ε τ α) :
    Ends (BitFlow.focus get set x) s R Q ↔ Ends x (get s) R fun a t => Q a (set t s) := by
  unfold Ends
  cases h : x.run (get s) with
  | ok a t => rw [focus_ok h]
  | error e t => rw [focus_error h]

/-- **What every round keeps holds when the loop is over.** `I done t` is what holds in `t` once
    the elements `done` have been gone through. -/
theorem forM {f : α → EStateM ε σ PUnit} (I : List α → σ → Prop) (as : List α)
    (h0 : I [] s)
    (hstep : ∀ done a rest t, as = done ++ a :: rest → I done t →
      Ends (f a) t R fun _ t' => I (done ++ [a]) t') :
    Ends (as.forM f) s R fun _ t => I as t := by
  -- the rounds still to come are a final part of `as`
  suffices H : ∀ (rest done : List α) (t : σ), as = done ++ rest → I done t →
      Ends (rest.forM f) t R fun _ t' => I as t' from H as [] s rfl h0
  intro rest
  induction rest with
  | nil =>
    intro done t h hI
    rw [List.append_nil] at h
    subst h
    exact hI
  | cons a rest ih =>
    intro done t h hI
    show Ends (f a >>= fun _ => rest.forM f) t R fun _ t' => I as t'
    refine seq (hstep done a rest t h hI) fun _ t' ht' => ?_
    exact ih (done ++ [a]) t' (by rw [h, List.append_assoc]; rfl) ht'

end Ends

/-! ## 4. What no step changes -/

/-- The computation `x` leaves the part `f` of the state as it is. -/
def Keeps {β : Type} (f : σ → β) (x : EStateM ε σ α) : Prop :=
  ∀ s, Ends x s (fun _ => True) fun _ t => f t = f s

namespace Keeps

variable {γ : Type} {f : σ → γ}

theorem eq_of_ok {x : EStateM ε σ α} (h : Keeps f x) {s t : σ} {a : α} (hx : x.run s = .ok a t) :
    f t = f s := (h s).of_ok hx

theorem pure (a : α) : Keeps f (pure a : EStateM ε σ α) := fun _ => rfl

theorem throw (e : ε) : Keeps f (throw e : EStateM ε σ α) := fun _ => trivial

theorem get : Keeps f (get : EStateM ε σ σ) := fun _ => rfl

theorem bind {x : EStateM ε σ α} {y : α → EStateM ε σ β} (hx : Keeps f x)
    (hy : ∀ a, Keeps f (y a)) : Keeps f (x >>= y) := fun s =>
  Ends.seq (hx s) fun a t ht => (hy a t).mono fun _ _ hu => hu.trans ht

theorem modify {h : σ → σ} (hh : ∀ s, f (h s) = f s) : Keeps f (modify h : EStateM ε σ PUnit) := hh

theorem forM {k : α → EStateM ε σ PUnit} (hk : ∀ a, Keeps f (k a)) (as : List α) :
    Keeps f (as.forM k) := by
  induction as with
  | nil => exact pure _
  | cons a as ih => exact bind (hk a) fun _ => ih

/-- A computation on another part of the state. -/
theorem focus {get : σ → τ} {set : τ → σ → σ} (hset : ∀ t s, f (set t s) = f s)
    (x : EStateM ε τ α) : Keeps f (BitFlow.focus get set x) := fun s =>
  (Ends.focus_iff x).2 (Ends.of_run fun _ t _ => hset t s)

end Keeps

end BitFlow
