import BitFlow.Proofs.Outcome

/-!
# What computations leave behind

A fault does not undo what was changed before it. `Leaves x s E Q` says how the computation `x`,
started in `s`, ends, and in which state: with an answer and a state that satisfy `Q`, or with a
fault and a state that satisfy `E`. `after x s` is that state, `fault? x s` that fault.

`Yields I A x` says that `x` keeps the invariant `I`, whichever way it ends, and that its answers
satisfy `A`. `Secures I J A x` says it of answers only, and lets the invariant change.
`Advances R A x s` says that `x` leads from `s` to a state that `R` relates to it. `Atomic x` says
that a fault of `x` leaves the state as it was.

Main statements: `after_iff` -- what is true of the state after a computation is what holds of the
state at its answer and of the state at its fault; `Yields.bind`, `Yields.forM` -- sequences and
loops keep what their steps keep; `Atomic.bind` -- a computation all of whose checks come before
its first change is atomic.
-/

namespace BitFlow

variable {ε σ τ α β : Type}

/-- The state that a computation leaves, with an answer or with a fault. -/
def after (x : EStateM ε σ α) (s : σ) : σ :=
  match x.run s with
  | .ok _ t => t
  | .error _ t => t

/-- The fault with which a computation ends, if it ends with one. -/
def fault? (x : EStateM ε σ α) (s : σ) : Option ε :=
  match x.run s with
  | .ok _ _ => none
  | .error e _ => some e

theorem fault?_eq_some {x : EStateM ε σ α} {s : σ} {e : ε} :
    fault? x s = some e ↔ x.run s = .error e (after x s) := by
  unfold fault? after
  cases x.run s with
  | ok a t => simp
  | error e' t => simp

/-- The computation `x`, started in `s`, ends with `Q` of its answer and state, or with `E` of its
    fault and state. -/
def Leaves (x : EStateM ε σ α) (s : σ) (E : ε → σ → Prop) (Q : α → σ → Prop) : Prop :=
  match x.run s with
  | .ok a t => Q a t
  | .error e t => E e t

theorem after_iff (x : EStateM ε σ α) (s : σ) (P : σ → Prop) :
    P (after x s) ↔ Leaves x s (fun _ t => P t) fun _ t => P t := by
  unfold after Leaves
  cases x.run s <;> rfl

namespace Leaves

variable {s : σ} {E : ε → σ → Prop} {Q : α → σ → Prop}

theorem of_ok {x : EStateM ε σ α} {a : α} {t : σ} (h : Leaves x s E Q) (hx : x.run s = .ok a t) :
    Q a t := by
  unfold Leaves at h
  rw [hx] at h
  exact h

theorem of_error {x : EStateM ε σ α} {e : ε} {t : σ} (h : Leaves x s E Q)
    (hx : x.run s = .error e t) : E e t := by
  unfold Leaves at h
  rw [hx] at h
  exact h

@[simp] theorem get_iff {Q : σ → σ → Prop} : Leaves (get : EStateM ε σ σ) s E Q ↔ Q s s := Iff.rfl

@[simp] theorem modify_iff {Q : PUnit → σ → Prop} (f : σ → σ) :
    Leaves (modify f : EStateM ε σ PUnit) s E Q ↔ Q ⟨⟩ (f s) := Iff.rfl

@[simp] theorem bind_iff (x : EStateM ε σ α) (f : α → EStateM ε σ β) {Q : β → σ → Prop} :
    Leaves (x >>= f) s E Q ↔ Leaves x s E fun a t => Leaves (f a) t E Q := by
  unfold Leaves
  rw [EStateM.run_bind]
  cases x.run s <;> rfl

@[simp] theorem discard_iff (x : EStateM ε σ α) {Q : PUnit → σ → Prop} :
    Leaves (discard x) s E Q ↔ Leaves x s E fun _ t => Q ⟨⟩ t := by
  have h : (discard x : EStateM ε σ PUnit) = x >>= fun _ => pure ⟨⟩ := rfl
  rw [h, bind_iff]
  rfl

/-- A computation that never fails leaves what its answer leaves. -/
theorem of_ends {x : EStateM ε σ α} (h : Ends x s (fun _ => False) Q) : Leaves x s E Q := by
  unfold Ends at h
  unfold Leaves
  cases hx : x.run s with
  | ok a t =>
    rw [hx] at h
    exact h
  | error e t =>
    rw [hx] at h
    exact h.elim

/-- What is left by faults from one fact, and what is left by answers from another. -/
theorem of_both {x : EStateM ε σ α} {Q' : α → σ → Prop} (h : Leaves x s E Q')
    (h' : Ends x s (fun _ => True) Q) : Leaves x s E Q := by
  unfold Ends at h'
  unfold Leaves at *
  cases hx : x.run s with
  | ok a t =>
    rw [hx] at h'
    exact h'
  | error e t =>
    rw [hx] at h
    exact h

/-- What is left, and what is known of the answers from elsewhere. -/
theorem and {x : EStateM ε σ α} {Q' : α → σ → Prop} (h : Leaves x s E Q)
    (h' : Ends x s (fun _ => True) Q') : Leaves x s E fun a t => Q a t ∧ Q' a t := by
  unfold Ends at h'
  unfold Leaves at *
  cases hx : x.run s with
  | ok a t =>
    rw [hx] at h h'
    exact ⟨h, h'⟩
  | error e t =>
    rw [hx] at h
    exact h

/-- What is left by answers, whatever the faults are. -/
theorem ends {x : EStateM ε σ α} (h : Leaves x s E Q) : Ends x s (fun _ => True) Q :=
  Ends.of_run fun _ _ run => h.of_ok run

/-- Where nothing is said of faults, only answers count. -/
theorem any_iff {x : EStateM ε σ α} :
    Leaves x s (fun _ _ => True) Q ↔ Ends x s (fun _ => True) Q := Iff.rfl

theorem mono {x : EStateM ε σ α} {E' : ε → σ → Prop} {Q' : α → σ → Prop} (h : Leaves x s E Q)
    (hE : ∀ e t, E e t → E' e t) (hQ : ∀ a t, Q a t → Q' a t) : Leaves x s E' Q' := by
  unfold Leaves at *
  cases hx : x.run s with
  | ok a t =>
    rw [hx] at h
    exact hQ a t h
  | error e t =>
    rw [hx] at h
    exact hE e t h

/-- One step after the other, where a fault of either leaves the same. -/
theorem seq {x : EStateM ε σ α} {f : α → EStateM ε σ β} {P : α → σ → Prop} {Q : β → σ → Prop}
    (hx : Leaves x s E P) (hf : ∀ a t, P a t → Leaves (f a) t E Q) : Leaves (x >>= f) s E Q :=
  (bind_iff x f).2 (hx.mono (fun _ _ h => h) hf)

/-- A computation on a part of the state leaves the rest alone. -/
@[simp] theorem focus_iff {get : σ → τ} {set : τ → σ → σ} (x : EStateM ε τ α) :
    Leaves (BitFlow.focus get set x) s E Q ↔
      Leaves x (get s) (fun e t => E e (set t s)) fun a t => Q a (set t s) := by
  unfold Leaves
  cases h : x.run (get s) with
  | ok a t => rw [focus_ok h]
  | error e t => rw [focus_error h]

end Leaves

/-! ## Faults without a trace -/

/-- The computation `x` changes nothing, whichever way it ends. -/
def Looks (x : EStateM ε σ α) : Prop := ∀ s, Leaves x s (fun _ t => t = s) fun _ t => t = s

/-- **A fault of the computation leaves the state as it was.** -/
def Atomic (x : EStateM ε σ α) : Prop := ∀ s, Leaves x s (fun _ t => t = s) fun _ _ => True

namespace Looks

theorem pure (a : α) : Looks (pure a : EStateM ε σ α) := fun _ => rfl

theorem throw (e : ε) : Looks (throw e : EStateM ε σ α) := fun _ => rfl

theorem bind {x : EStateM ε σ α} {f : α → EStateM ε σ β} (hx : Looks x) (hf : ∀ a, Looks (f a)) :
    Looks (x >>= f) := fun s =>
  (hx s).seq fun a t ht => by
    subst ht
    exact hf a t

theorem look {f : σ → EStateM ε σ α} (hf : ∀ s, Looks (f s)) : Looks (get >>= f) := fun s => hf s s

/-- A computation on a part of the state. -/
theorem focus {get : σ → τ} {set : τ → σ → σ} (hset : ∀ s, set (get s) s = s) {x : EStateM ε τ α}
    (hx : Looks x) : Looks (BitFlow.focus get set x) := fun s =>
  (Leaves.focus_iff x).2 ((hx (get s)).mono (fun _ t ht => by rw [ht, hset])
    fun _ t ht => by rw [ht, hset])

/-- What is known of the answers of a look. -/
theorem leaves {x : EStateM ε σ α} (hx : Looks x) {s : σ} {Q : α → σ → Prop}
    (h : Ends x s (fun _ => True) Q) : Leaves x s (fun _ t => t = s) Q :=
  .of_both (hx s) h

end Looks

/-- A look at the state that tells what `A` says, and what follows it. -/
theorem Leaves.looked {x : EStateM ε σ α} (hx : Looks x) {s : σ} {A : α → Prop}
    (hA : Ends x s (fun _ => True) fun a _ => A a) {E : ε → σ → Prop} {Q : β → σ → Prop}
    {f : α → EStateM ε σ β} (hE : ∀ e, E e s) (hf : ∀ a, A a → Leaves (f a) s E Q) :
    Leaves (x >>= f) s E Q := by
  have hboth : Ends x s (fun _ => True) fun a t => A a ∧ t = s :=
    hA.imp fun _ _ run ha => ⟨ha, (hx s).of_ok run⟩
  refine (bind_iff x f).2 ((hx.leaves hboth).mono (fun e _ ht => ht ▸ hE e) fun a t ht => ?_)
  obtain ⟨ha, rfl⟩ := ht
  exact hf a ha

namespace Atomic

theorem of_looks {x : EStateM ε σ α} (hx : Looks x) : Atomic x := fun s =>
  (hx s).mono (fun _ _ h => h) fun _ _ _ => trivial

/-- What would come after a fault does not. -/
theorem throw_bind (e : ε) (f : α → EStateM ε σ β) :
    Atomic ((MonadExcept.throw e : EStateM ε σ α) >>= f) := fun _ => rfl

/-- A computation that never fails. -/
theorem of_total {x : EStateM ε σ α} (hx : ∀ s, Ends x s (fun _ => False) fun _ _ => True) :
    Atomic x := fun s => .of_ends (hx s)

/-- **Checks come first**, and what follows them is atomic. -/
theorem bind {x : EStateM ε σ α} {f : α → EStateM ε σ β} (hx : Looks x) (hf : ∀ a, Atomic (f a)) :
    Atomic (x >>= f) := fun s =>
  (hx s).seq fun a t ht => by
    subst ht
    exact hf a t

theorem look {f : σ → EStateM ε σ α} (hf : ∀ s, Atomic (f s)) : Atomic (get >>= f) :=
  fun s => hf s s

/-- What follows the only step that can fail. -/
theorem andThen {x : EStateM ε σ α} {f : α → EStateM ε σ β} (hx : Atomic x)
    (hf : ∀ a s, Ends (f a) s (fun _ => False) fun _ _ => True) : Atomic (x >>= f) := fun s =>
  (hx s).seq fun a t _ => .of_ends (hf a t)

/-- A computation on a part of the state. -/
theorem focus {get : σ → τ} {set : τ → σ → σ} (hset : ∀ s, set (get s) s = s) {x : EStateM ε τ α}
    (hx : Atomic x) : Atomic (BitFlow.focus get set x) := fun s =>
  (Leaves.focus_iff x).2 ((hx (get s)).mono (fun _ t ht => by rw [ht, hset]) fun _ _ h => h)

/-- What is known of the answers of an atomic computation, together with the state at its faults. -/
theorem leaves {x : EStateM ε σ α} (hx : Atomic x) {s : σ} {Q : α → σ → Prop}
    (h : Ends x s (fun _ => True) Q) : Leaves x s (fun _ t => t = s) Q :=
  .of_both (hx s) h

end Atomic

/-! ## Invariants -/

/-- **The computation keeps `I`**, with an answer or with a fault, and its answers satisfy `A`. -/
def Yields (I : σ → Prop) (A : α → Prop) (x : EStateM ε σ α) : Prop :=
  ∀ s, I s → Leaves x s (fun _ t => I t) fun a t => I t ∧ A a

namespace Yields

variable {I : σ → Prop} {A : α → Prop} {B : β → Prop}

theorem pure {a : α} (h : A a) : Yields I A (pure a : EStateM ε σ α) := fun _ hs => ⟨hs, h⟩

theorem throw (e : ε) : Yields I A (throw e : EStateM ε σ α) := fun _ hs => hs

theorem bind {x : EStateM ε σ α} {f : α → EStateM ε σ β} (hx : Yields I A x)
    (hf : ∀ a, A a → Yields I B (f a)) : Yields I B (x >>= f) :=
  fun s hs => (hx s hs).seq fun a t ht => hf a ht.2 t ht.1

/-- A look at the state. -/
theorem look {f : σ → EStateM ε σ α} (hf : ∀ s, I s → Yields I A (f s)) :
    Yields I A (get >>= f) := fun s hs => hf s hs s hs

/-- What changes nothing keeps everything. -/
theorem of_looks {x : EStateM ε σ α} (hx : Looks x) : Yields I (fun _ => True) x := fun s hs =>
  (hx s).mono (fun _ _ e => e ▸ hs) fun _ _ e => ⟨e ▸ hs, trivial⟩

theorem set {t : σ} (h : I t) : Yields I (fun _ => True) (set t : EStateM ε σ PUnit) :=
  fun _ _ => ⟨h, trivial⟩

theorem modify {h : σ → σ} (hh : ∀ s, I s → I (h s)) :
    Yields I (fun _ => True) (modify h : EStateM ε σ PUnit) := fun s hs => ⟨hh s hs, trivial⟩

theorem discard {x : EStateM ε σ α} (hx : Yields I A x) :
    Yields I (fun _ => True) (discard x) :=
  fun s hs => (Leaves.discard_iff x).2 ((hx s hs).mono (fun _ _ h => h) fun _ _ h => ⟨h.1, trivial⟩)

/-- A loop over a list whose elements are known to satisfy something. -/
theorem forM_mem {k : α → EStateM ε σ PUnit} (as : List α)
    (hk : ∀ a ∈ as, Yields I (fun _ => True) (k a)) : Yields I (fun _ => True) (as.forM k) := by
  induction as with
  | nil => exact pure trivial
  | cons a as ih =>
    obtain ⟨ha, has⟩ := List.forall_mem_cons.1 hk
    exact bind ha fun _ _ => ih has

theorem forM {k : α → EStateM ε σ PUnit} (hk : ∀ a, Yields I (fun _ => True) (k a)) (as : List α) :
    Yields I (fun _ => True) (as.forM k) := forM_mem as fun a _ => hk a

/-- A computation on a part of the state, where the invariant is one of that part and another of the
    rest. -/
theorem focus {get : σ → τ} {set : τ → σ → σ} {J : τ → Prop} {x : EStateM ε τ α}
    (hget : ∀ s, I s → J (get s)) (hset : ∀ s t, I s → J t → I (set t s)) (hx : Yields J A x) :
    Yields I A (BitFlow.focus get set x) := fun s hs =>
  (Leaves.focus_iff x).2 ((hx (get s) (hget s hs)).mono (fun _ t ht => hset s t hs ht)
    fun _ t ht => ⟨hset s t hs ht.1, ht.2⟩)

end Yields

/-! ## Answers -/

/-- **Where the computation comes to an answer, it has led from `I` to `J`**, and the answer
    satisfies `A`. -/
def Secures (I J : σ → Prop) (A : α → Prop) (x : EStateM ε σ α) : Prop :=
  ∀ s, I s → Ends x s (fun _ => True) fun a t => J t ∧ A a

namespace Secures

variable {I J K : σ → Prop} {A : α → Prop} {B : β → Prop}

theorem pure {a : α} (h : A a) : Secures I I A (pure a : EStateM ε σ α) := fun _ hs => ⟨hs, h⟩

theorem throw (e : ε) : Secures I J A (throw e : EStateM ε σ α) := fun _ _ => trivial

theorem bind {x : EStateM ε σ α} {f : α → EStateM ε σ β} (hx : Secures I J A x)
    (hf : ∀ a, A a → Secures J K B (f a)) : Secures I K B (x >>= f) :=
  fun s hs => (hx s hs).seq fun a t ht => hf a ht.2 t ht.1

/-- A look at the state. -/
theorem look {f : σ → EStateM ε σ α} (hf : ∀ s, I s → Secures I J A (f s)) :
    Secures I J A (get >>= f) := fun s hs => hf s hs s hs

theorem ite {c : Prop} [Decidable c] {x y : EStateM ε σ α} (hx : c → Secures I J A x)
    (hy : ¬ c → Secures I J A y) : Secures I J A (if c then x else y) := by
  split
  · exact hx ‹_›
  · exact hy ‹_›

theorem mono {J' : σ → Prop} {A' : α → Prop} {x : EStateM ε σ α} (hx : Secures I J A x)
    (hJ : ∀ s, J s → J' s) (hA : ∀ a, A a → A' a) : Secures I J' A' x :=
  fun s hs => (hx s hs).mono fun a t h => ⟨hJ t h.1, hA a h.2⟩

theorem discard {x : EStateM ε σ α} (hx : Secures I J A x) :
    Secures I J (fun _ => True) (discard x) :=
  fun s hs => (Ends.discard_iff x).2 ((hx s hs).mono fun _ _ h => ⟨h.1, trivial⟩)

/-- What leaves the state alone. -/
theorem of_keeps {x : EStateM ε σ α} (h : Keeps id x) : Secures I I (fun _ => True) x :=
  fun s hs => (h s).mono fun _ t (e : t = s) => ⟨e ▸ hs, trivial⟩

/-- An invariant that is kept whichever way the computation ends. -/
theorem of_yields {x : EStateM ε σ α} (h : Yields I A x) : Secures I I A x :=
  fun s hs => Ends.of_run fun _ _ run => (h s hs).of_ok run

/-- A computation on a part of the state, where the conditions are those of that part and others of
    the rest. -/
theorem focus {get : σ → τ} {set : τ → σ → σ} {I' J' : τ → Prop} {x : EStateM ε τ α}
    (hget : ∀ s, I s → I' (get s)) (hset : ∀ s t, I s → J' t → J (set t s))
    (hx : Secures I' J' A x) : Secures I J A (BitFlow.focus get set x) := fun s hs =>
  (Ends.focus_iff x).2 ((hx (get s) (hget s hs)).mono fun _ t ht => ⟨hset s t hs ht.1, ht.2⟩)

end Secures

/-! ## Steps forward -/

/-- **The computation leads from `s` on along `R`**, with an answer that satisfies `A` in the state
    reached, or with a fault. -/
def Advances (R : σ → σ → Prop) (A : σ → α → Prop) (x : EStateM ε σ α) (s : σ) : Prop :=
  Leaves x s (fun _ t => R s t) fun a t => R s t ∧ A t a

namespace Advances

variable {R : σ → σ → Prop} {A : σ → α → Prop} {B : σ → β → Prop} {s : σ}

theorem pure {a : α} (h : R s s) (ha : A s a) : Advances R A (pure a : EStateM ε σ α) s := ⟨h, ha⟩

theorem throw (h : R s s) (e : ε) : Advances R A (throw e : EStateM ε σ α) s := h

theorem bind [Trans R R R] {x : EStateM ε σ α} {f : α → EStateM ε σ β} (hx : Advances R A x s)
    (hf : ∀ a t, R s t → A t a → Advances R B (f a) t) : Advances R B (x >>= f) s :=
  Leaves.seq hx fun a t ht => Leaves.mono (hf a t ht.1 ht.2) (fun _ _ hu => Trans.trans ht.1 hu)
    fun _ _ hu => ⟨Trans.trans ht.1 hu.1, hu.2⟩

theorem look {f : σ → EStateM ε σ α} (hf : Advances R A (f s) s) : Advances R A (get >>= f) s := hf

/-- A look at the state that tells what `A` says, and what follows it. -/
theorem looked (h : R s s) {x : EStateM ε σ α} (hx : Looks x) {A : α → Prop}
    (hA : Ends x s (fun _ => True) fun a _ => A a) {f : α → EStateM ε σ β}
    (hf : ∀ a, A a → Advances R B (f a) s) : Advances R B (x >>= f) s :=
  Leaves.looked hx hA (fun _ => h) hf

/-- A loop in which every round leads on. -/
theorem forM [Trans R R R] (hrefl : ∀ t, R t t) {k : α → EStateM ε σ PUnit} (as : List α)
    (hk : ∀ a ∈ as, ∀ t, R s t → Advances R (fun _ _ => True) (k a) t) :
    Advances R (fun _ _ => True) (as.forM k) s := by
  induction as generalizing s with
  | nil => exact pure (hrefl s) trivial
  | cons a as ih =>
    obtain ⟨ha, has⟩ := List.forall_mem_cons.1 hk
    exact bind (ha s (hrefl s)) fun _ t ht _ => ih fun b hb u hu => has b hb u (Trans.trans ht hu)

theorem mono {A' : σ → α → Prop} {x : EStateM ε σ α} (hx : Advances R A x s)
    (hA : ∀ a t, R s t → A t a → A' t a) : Advances R A' x s :=
  Leaves.mono hx (fun _ _ h => h) fun a t h => ⟨h.1, hA a t h.1 h.2⟩

theorem ite {c : Prop} [Decidable c] {x y : EStateM ε σ α} (hx : c → Advances R A x s)
    (hy : ¬ c → Advances R A y s) : Advances R A (if c then x else y) s := by
  split
  · exact hx ‹_›
  · exact hy ‹_›

theorem discard {x : EStateM ε σ α} (hx : Advances R A x s) :
    Advances R (fun _ _ => True) (discard x) s :=
  (Leaves.discard_iff x).2 (Leaves.mono hx (fun _ _ h => h) fun _ _ h => ⟨h.1, trivial⟩)

/-- A computation on a part of the state. -/
theorem focus {get : σ → τ} {set : τ → σ → σ} {S : τ → τ → Prop} {B : τ → α → Prop}
    {x : EStateM ε τ α} (hx : Advances S B x (get s)) (hset : ∀ t, S (get s) t → R s (set t s))
    (hA : ∀ a t, S (get s) t → B t a → A (set t s) a) : Advances R A (BitFlow.focus get set x) s :=
  (Leaves.focus_iff x).2 (Leaves.mono hx (fun _ t ht => hset t ht)
    fun a t ht => ⟨hset t ht.1, hA a t ht.1 ht.2⟩)

end Advances

end BitFlow
