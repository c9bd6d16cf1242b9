import BitFlow.Fault
import BitFlow.Proofs.Aftermath

/-!
# Recursions of any depth

A recursion that nothing bounds may go on for ever. It stands here as a family of courses, one for
each depth: a `Course` that would have to recur deeper than its depth allows has no outcome, and
all others do what the text says. The recursion ends if some depth is enough, and what it comes to
(`Course.Comes`) is the outcome that it has from then on. `Course.Allows` and `Course.Preserves`
say what holds of the outcome at any one depth, if there is one.

Main statements: `Course.Comes.ok_bind`, `Course.Comes.error_bind` -- a sequence comes to what its
second part comes to where the first has ended, or to the fault of the first; `Course.Comes.deeper`
-- a recursion may be unfolded; `Course.Allows.seq`, `Course.Preserves.bind` -- where a
sequence may lead, and what it keeps.
-/

namespace BitFlow

/-- A computation on a state that may stop with a fault, and that may be cut off. -/
abbrev Course (σ : Type) := ExceptT Fault (StateT σ Option)

namespace Course

variable {σ α β : Type}

/-- What a course comes to; nothing if it is cut off. -/
def outcome (c : Course σ α) (s : σ) : Option (EStateM.Result Fault σ α) :=
  match c s with
  | none => none
  | some (.ok a, t) => some (.ok a t)
  | some (.error e, t) => some (.error e t)

/-- What stands in for a recursion that is too deep. -/
def cut : Course σ α := fun _ => none

/-- An action as one step of a course. -/
def act (x : EStateM Fault σ α) : Course σ α := fun s =>
  match x.run s with
  | .ok a t => some (.ok a, t)
  | .error e t => some (.error e, t)

instance : MonadLift (EStateM Fault σ) (Course σ) := ⟨act⟩

@[simp] theorem outcome_pure (a : α) (s : σ) : outcome (pure a : Course σ α) s = some (.ok a s) :=
  rfl

@[simp] theorem outcome_throw (e : Fault) (s : σ) :
    outcome (throw e : Course σ α) s = some (.error e s) := rfl

@[simp] theorem outcome_get (s : σ) : outcome (get : Course σ σ) s = some (.ok s s) := rfl

/-- **An action has the outcome that it has by itself.** -/
@[simp] theorem outcome_act (x : EStateM Fault σ α) (s : σ) :
    outcome (act x) s = some (x.run s) := by
  unfold outcome act
  cases x.run s <;> rfl

/-- What follows a course starts where it has ended with an answer. -/
def andThen (f : α → Course σ β) : EStateM.Result Fault σ α → Option (EStateM.Result Fault σ β)
  | .ok a t => (f a).outcome t
  | .error e t => some (.error e t)

/-- **One course after the other.** -/
theorem outcome_bind (c : Course σ α) (f : α → Course σ β) (s : σ) :
    outcome (c >>= f) s = (c.outcome s).bind (andThen f) := by
  have hbind : (c >>= f) s = (c s).bind fun p =>
      match p with
      | (.ok a, t) => f a t
      | (.error e, t) => some (.error e, t) := by
    show (c s).bind (fun p => ExceptT.bindCont f p.1 p.2) = _
    congr 1
    funext ⟨r, t⟩
    cases r <;> rfl
  unfold outcome
  rw [hbind]
  match c s with
  | none => rfl
  | some (.ok a, t) => rfl
  | some (.error e, t) => rfl

/-- What follows a course that ends with an answer. -/
theorem outcome_bind_ok {c : Course σ α} {f : α → Course σ β} {s t : σ} {a : α}
    (h : c.outcome s = some (.ok a t)) : outcome (c >>= f) s = (f a).outcome t := by
  rw [outcome_bind, h]
  rfl

/-- A fault ends what follows as well. -/
theorem outcome_bind_error {c : Course σ α} {f : α → Course σ β} {s t : σ} {e : Fault}
    (h : c.outcome s = some (.error e t)) : outcome (c >>= f) s = some (.error e t) := by
  rw [outcome_bind, h]
  rfl

/-! ## What recursions come to -/

/-- **What a recursion comes to**: the outcome that it has from some depth on. -/
def Comes (c : Nat → Course σ α) (s : σ) (r : EStateM.Result Fault σ α) : Prop :=
  ∃ n, ∀ m, n ≤ m → (c m).outcome s = some r

namespace Comes

variable {c : Nat → Course σ α} {d : Nat → α → Course σ β} {s t : σ} {a : α} {e : Fault}

/-- What does not recur. -/
theorem of_outcome {r : EStateM.Result Fault σ α} (h : ∀ n, (c n).outcome s = some r) :
    Comes c s r := ⟨0, fun m _ => h m⟩

theorem act (x : EStateM Fault σ α) (s : σ) : Comes (fun _ => act x) s (x.run s) :=
  .of_outcome fun _ => outcome_act x s

theorem pure (a : α) (s : σ) : Comes (fun _ => pure a) s (.ok a s) :=
  .of_outcome fun _ => outcome_pure a s

theorem throw (e : Fault) (s : σ) : Comes (fun _ => throw e : Nat → Course σ α) s (.error e s) :=
  .of_outcome fun _ => outcome_throw e s

theorem get (s : σ) : Comes (fun _ => get) s (.ok s s) := .of_outcome fun _ => outcome_get s

/-- **A recursion may be unfolded**: its calls are less deep by one. -/
theorem deeper {r : EStateM.Result Fault σ α} (h : Comes (fun n => c (n + 1)) s r) :
    Comes c s r := by
  obtain ⟨n, hn⟩ := h
  refine ⟨n + 1, fun m hm => ?_⟩
  obtain ⟨k, rfl⟩ : ∃ k, m = k + 1 := Nat.exists_eq_succ_of_ne_zero (Nat.ne_zero_of_lt hm)
  exact hn k (Nat.le_of_succ_le_succ hm)

theorem unfolded {r : EStateM.Result Fault σ α} (h : Comes c s r) :
    Comes (fun n => c (n + 1)) s r := by
  obtain ⟨n, hn⟩ := h
  exact ⟨n, fun m hm => hn (m + 1) (Nat.le_succ_of_le hm)⟩

/-- Where two recursions agree from some depth on, they come to the same. -/
theorem of_agree {c' : Nat → Course σ α} {r : EStateM.Result Fault σ α} {n : Nat}
    (hn : ∀ m, n ≤ m → (c' m).outcome t = (c m).outcome s) (h : Comes c s r) : Comes c' t r := by
  obtain ⟨k, hk⟩ := h
  refine ⟨max n k, fun m hm => ?_⟩
  rw [hn m (Nat.le_trans (Nat.le_max_left n k) hm)]
  exact hk m (Nat.le_trans (Nat.le_max_right n k) hm)

/-- **What follows a recursion that ends with an answer** comes to what it does by itself. -/
theorem ok_bind (h : Comes c s (.ok a t)) :
    Comes (fun n => c n >>= d n) s = Comes (fun n => d n a) t := by
  obtain ⟨n, hn⟩ := h
  have hagree : ∀ m, n ≤ m → (c m >>= d m).outcome s = (d m a).outcome t := fun m hm =>
    outcome_bind_ok (hn m hm)
  funext r
  exact propext ⟨of_agree fun m hm => (hagree m hm).symm, of_agree hagree⟩

/-- **A fault ends what follows as well.** -/
theorem error_bind (h : Comes c s (.error e t)) :
    Comes (fun n => c n >>= d n) s (.error e t) := by
  obtain ⟨n, hn⟩ := h
  exact ⟨n, fun m hm => outcome_bind_error (hn m hm)⟩

/-- What follows an action. -/
theorem act_bind {x : EStateM Fault σ α} {f : α → EStateM Fault σ β}
    (h : ∀ a t, x.run s = .ok a t → Comes (fun n => d n a) t ((f a).run t)) :
    Comes (fun n => Course.act x >>= d n) s ((x >>= f).run s) := by
  have hx := Comes.act x s
  rw [EStateM.run_bind]
  cases hrun : x.run s with
  | ok a t =>
    rw [hrun] at hx
    rw [hx.ok_bind]
    exact h a t hrun
  | error e t =>
    rw [hrun] at hx
    exact hx.error_bind

end Comes

/-! ## What courses keep -/

/-- The course, started in `s`, is cut off, or it ends with `Q` of its answer and state, or with
    `E` of its fault and state. -/
def Allows (c : Course σ α) (s : σ) (E : Fault → σ → Prop) (Q : α → σ → Prop) : Prop :=
  match c.outcome s with
  | none => True
  | some (.ok a t) => Q a t
  | some (.error e t) => E e t

namespace Allows

variable {s : σ} {E : Fault → σ → Prop} {Q : α → σ → Prop}

theorem of_ok {c : Course σ α} {a : α} {t : σ} (h : Allows c s E Q)
    (hc : c.outcome s = some (.ok a t)) : Q a t := by
  unfold Allows at h
  rw [hc] at h
  exact h

theorem of_error {c : Course σ α} {e : Fault} {t : σ} (h : Allows c s E Q)
    (hc : c.outcome s = some (.error e t)) : E e t := by
  unfold Allows at h
  rw [hc] at h
  exact h

theorem mono {c : Course σ α} {E' : Fault → σ → Prop} {Q' : α → σ → Prop} (h : Allows c s E Q)
    (hE : ∀ e t, E e t → E' e t) (hQ : ∀ a t, Q a t → Q' a t) : Allows c s E' Q' := by
  unfold Allows at *
  match hc : c.outcome s with
  | none => trivial
  | some (.ok a t) =>
    rw [hc] at h
    exact hQ a t h
  | some (.error e t) =>
    rw [hc] at h
    exact hE e t h

/-- An action leads where it leads by itself. -/
theorem act {x : EStateM Fault σ α} (h : Leaves x s E Q) : Allows (act x) s E Q := by
  unfold Allows
  rw [outcome_act]
  unfold Leaves at h
  cases hx : x.run s with
  | ok a t =>
    rw [hx] at h
    exact h
  | error e t =>
    rw [hx] at h
    exact h

/-- **One course after the other**, where a fault of either may be any that `E` admits. -/
theorem seq {c : Course σ α} {f : α → Course σ β} {P : α → σ → Prop} {Q : β → σ → Prop}
    (hc : Allows c s E P) (hf : ∀ a t, P a t → Allows (f a) t E Q) : Allows (c >>= f) s E Q := by
  unfold Allows at hc ⊢
  rw [outcome_bind]
  match hrun : c.outcome s with
  | none => trivial
  | some (.ok a t) =>
    rw [hrun] at hc
    exact hf a t hc
  | some (.error e t) =>
    rw [hrun] at hc
    exact hc

end Allows

/-- **The course keeps `I`** wherever it ends, with an answer that satisfies `A` or with a fault. -/
def Preserves (I : σ → Prop) (A : α → Prop) (c : Course σ α) : Prop :=
  ∀ s, I s → Allows c s (fun _ t => I t) fun a t => I t ∧ A a

namespace Preserves

variable {I : σ → Prop} {A : α → Prop} {B : β → Prop}

theorem cut : Preserves I A (cut : Course σ α) := fun _ _ => trivial

theorem pure {a : α} (h : A a) : Preserves I A (pure a : Course σ α) := fun _ hs => ⟨hs, h⟩

theorem throw (e : Fault) : Preserves I A (throw e : Course σ α) := fun _ hs => hs

theorem act {x : EStateM Fault σ α} (hx : Yields I A x) : Preserves I A (act x) :=
  fun s hs => .act (hx s hs)

theorem bind {c : Course σ α} {f : α → Course σ β} (hc : Preserves I A c)
    (hf : ∀ a, A a → Preserves I B (f a)) : Preserves I B (c >>= f) :=
  fun s hs => (hc s hs).seq fun a t ht => hf a ht.2 t ht.1

/-- A look at the state. -/
theorem look {f : σ → Course σ α} (hf : ∀ s, I s → Preserves I A (f s)) : Preserves I A (get >>= f) :=
  fun s hs => Allows.seq (c := get) (P := fun a t => a = s ∧ t = s) ⟨rfl, rfl⟩
    fun a t ⟨ha, ht⟩ => by
      rw [ha, ht]
      exact hf s hs s hs

theorem forM {k : α → Course σ PUnit} (hk : ∀ a, Preserves I (fun _ => True) (k a)) (as : List α) :
    Preserves I (fun _ => True) (as.forM k) := by
  induction as with
  | nil => exact pure trivial
  | cons a as ih => exact bind (hk a) fun _ _ => ih

end Preserves

end Course

end BitFlow
