/-!
# Computations on a part of the state

`focus` runs a computation on one part of a larger state. The rest of the state is untouched,
whether the computation succeeds or stops; `focus_ok` and `focus_error` say so.
-/

namespace BitFlow

variable {ε σ τ α : Type}

/-- A computation on the part `get s` of a state, as a computation on the whole state. -/
def focus (get : σ → τ) (set : τ → σ → σ) (x : EStateM ε τ α) : EStateM ε σ α := fun s =>
  match x (get s) with
  | .ok a t => .ok a (set t s)
  | .error e t => .error e (set t s)

theorem focus_ok {get : σ → τ} {set : τ → σ → σ} {x : EStateM ε τ α} {s : σ} {a : α} {t : τ}
    (h : x.run (get s) = .ok a t) : (focus get set x).run s = .ok a (set t s) := by
  have h' : x (get s) = .ok a t := h
  simp [focus, EStateM.run, h']

theorem focus_error {get : σ → τ} {set : τ → σ → σ} {x : EStateM ε τ α} {s : σ} {e : ε} {t : τ}
    (h : x.run (get s) = .error e t) : (focus get set x).run s = .error e (set t s) := by
  have h' : x (get s) = .error e t := h
  simp [focus, EStateM.run, h']

end BitFlow
