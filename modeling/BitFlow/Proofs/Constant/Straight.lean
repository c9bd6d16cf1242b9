import BitFlow.Proofs.Move.Basic
import BitFlow.Proofs.Reaching.Frame
import BitFlow.Proofs.Reaching.Origin
import Mathlib.Data.List.Forall2

/-!
# Straight-line evaluation

An operand that depends on port reads and operators only, not on phis, can be evaluated once
literals are given for the port reads. Operators are evaluated by folding.

The lowering of an expression reads variables and puts instructions in. What was there before keeps
its instructions, and so its value.

Main statements: `Graph.Denotes.unique` -- an operand has one value at most; `Graph.Grown.denotes`
-- a growing graph keeps values; `Graph.Resulting.of_denotes` -- values are of the type of the
operand.
-/

namespace BitFlow

/-! ## 1. Evaluation -/

/-- Applying a partial function to all elements of a list. -/
theorem mapM_eq_some_iff {α β : Type} {f : α → Option β} {as : List α} {bs : List β} :
    as.mapM f = some bs ↔ List.Forall₂ (fun a b => f a = some b) as bs := by
  induction as generalizing bs with
  | nil =>
    rw [List.mapM_nil, List.forall₂_nil_left_iff]
    exact ⟨fun h => (Option.some.inj h).symm, fun h => congrArg some h.symm⟩
  | cons a as ih =>
    rw [List.mapM_cons]
    constructor
    · intro h
      obtain ⟨b, hb, h⟩ := Option.bind_eq_some_iff.1 h
      obtain ⟨bs', hbs, h⟩ := Option.bind_eq_some_iff.1 h
      cases h
      exact .cons hb (ih.1 hbs)
    · intro h
      cases h with
      | cons hb hbs =>
        rw [hb, ih.2 hbs]
        rfl

theorem mapM_congr {α β : Type} {f f' : α → Option β} {as : List α}
    (h : ∀ a ∈ as, f a = f' a) : as.mapM f = as.mapM f' := by
  induction as with
  | nil => rfl
  | cons a as ih =>
    rw [List.mapM_cons, List.mapM_cons, h a List.mem_cons_self,
      ih fun a' ha => h a' (List.mem_cons_of_mem _ ha)]

namespace Graph

/-- The value of an operand, where `inputs` gives the data of port reads; operands are followed
    through `n` instructions at most. An undefined operand and a phi have no value. -/
def evaluate (g : Graph) (inputs : ValueId → Option Literal) : Nat → Operand → Option Literal
  | _, .lit c => some c
  | _, .undef _ => none
  | 0, .value _ => none
  | n + 1, .value v =>
      match g.instr? v with
      | none => none
      | some i =>
          match i.instr.portUse with
          | some u => if u.access = .read then inputs v else none
          | none => (i.instr.operands.mapM (evaluate g inputs n)).bind fun cs =>
              fold i.instr.op cs i.ty

/-- **The operand has the value `c`.** -/
def Denotes (g : Graph) (inputs : ValueId → Option Literal) (o : Operand) (c : Literal) : Prop :=
  ∃ n, g.evaluate inputs n o = some c

variable {g g' : Graph} {inputs : ValueId → Option Literal} {o : Operand} {c c' : Literal}
  {v : ValueId} {i : OwnedInstr} {n : Nat}

theorem evaluate_lit (n : Nat) (c : Literal) : g.evaluate inputs n (.lit c) = some c := by
  cases n <;> rfl

theorem evaluate_undef (n : Nat) (ty : Ty) : g.evaluate inputs n (.undef ty) = none := by
  cases n <;> rfl

/-- The value of a port read is given; a write has none. -/
theorem evaluate_port {u : PortUse} (hi : g.instr? v = some i) (hu : i.instr.portUse = some u) :
    g.evaluate inputs (n + 1) (.value v) = if u.access = .read then inputs v else none := by
  rw [evaluate, hi]
  dsimp only
  rw [hu]

/-- The value of an instruction that touches no port comes from the values of its operands. -/
theorem evaluate_code (hi : g.instr? v = some i) (hu : i.instr.portUse = none) :
    g.evaluate inputs (n + 1) (.value v) =
      (i.instr.operands.mapM (g.evaluate inputs n)).bind fun cs => fold i.instr.op cs i.ty := by
  rw [evaluate, hi]
  dsimp only
  rw [hu]

theorem evaluate_succ (h : g.evaluate inputs n o = some c) :
    g.evaluate inputs (n + 1) o = some c := by
  induction n generalizing o c with
  | zero =>
    cases o with
    | lit a =>
      rw [evaluate_lit] at h ⊢
      exact h
    | undef ty =>
      rw [evaluate_undef] at h
      cases h
    | value v => cases h
  | succ n ih =>
    cases o with
    | lit a =>
      rw [evaluate_lit] at h ⊢
      exact h
    | undef ty =>
      rw [evaluate_undef] at h
      cases h
    | value v =>
      cases hi : g.instr? v with
      | none =>
        rw [evaluate, hi] at h
        cases h
      | some i =>
        cases hu : i.instr.portUse with
        | some u =>
          rw [evaluate_port hi hu] at h ⊢
          exact h
        | none =>
          rw [evaluate_code hi hu] at h ⊢
          obtain ⟨cs, hcs, hf⟩ := Option.bind_eq_some_iff.1 h
          refine Option.bind_eq_some_iff.2 ⟨cs, ?_, hf⟩
          rw [mapM_eq_some_iff] at hcs ⊢
          exact hcs.imp fun _ _ => ih

theorem evaluate_mono {m : Nat} (hle : n ≤ m) (h : g.evaluate inputs n o = some c) :
    g.evaluate inputs m o = some c := by
  induction hle with
  | refl => exact h
  | step _ ih => exact evaluate_succ ih

/-- **An operand has one value at most.** -/
theorem Denotes.unique (h : g.Denotes inputs o c) (h' : g.Denotes inputs o c') : c = c' := by
  obtain ⟨n, hn⟩ := h
  obtain ⟨m, hm⟩ := h'
  have hmax := evaluate_mono (Nat.le_max_left n m) hn
  rw [evaluate_mono (Nat.le_max_right n m) hm] at hmax
  exact (Option.some.inj hmax).symm

theorem denotes_lit (c : Literal) : g.Denotes inputs (.lit c) c := ⟨0, rfl⟩

theorem Denotes.eq_of_lit {a : Literal} (h : g.Denotes inputs (.lit a) c) : c = a :=
  h.unique (denotes_lit a)

theorem not_denotes_undef {ty : Ty} : ¬ g.Denotes inputs (.undef ty) c := by
  rintro ⟨n, hn⟩
  rw [evaluate_undef] at hn
  cases hn

/-- What has a value is an instruction, if it is no literal. -/
theorem Denotes.exists_instr (h : g.Denotes inputs (.value v) c) : ∃ i, g.instr? v = some i := by
  obtain ⟨n, hn⟩ := h
  cases n with
  | zero => cases hn
  | succ n =>
    cases hi : g.instr? v with
    | none =>
      rw [evaluate, hi] at hn
      cases hn
    | some i => exact ⟨i, rfl⟩

/-- **The value of an instruction that touches no port is folded** from values of its operands. -/
theorem Denotes.fold (h : g.Denotes inputs (.value v) c) (hi : g.instr? v = some i)
    (hu : i.instr.portUse = none) :
    ∃ cs, List.Forall₂ (g.Denotes inputs) i.instr.operands cs ∧
      BitFlow.fold i.instr.op cs i.ty = some c := by
  obtain ⟨n, hn⟩ := h
  cases n with
  | zero => cases hn
  | succ n =>
    rw [evaluate_code hi hu] at hn
    obtain ⟨cs, hcs, hf⟩ := Option.bind_eq_some_iff.1 hn
    exact ⟨cs, (mapM_eq_some_iff.1 hcs).imp fun _ _ h => ⟨n, h⟩, hf⟩

/-- The value of a port read is given. -/
theorem Denotes.input (h : g.Denotes inputs (.value v) c) (hi : g.instr? v = some i)
    {q : PortId} (hu : i.instr.portUse = some ⟨q, .read⟩) : inputs v = some c := by
  obtain ⟨n, hn⟩ := h
  cases n with
  | zero => cases hn
  | succ n =>
    rw [evaluate_port hi hu] at hn
    exact hn

/-! ## 2. A growing graph -/

/-- **What is in `g` stays as it is in `g'`**: instructions, types and attachment. -/
structure Grown (g g' : Graph) : Prop where
  size : g.values.size ≤ g'.values.size
  instr : ∀ {v : ValueId}, v.index < g.values.size → g'.instr? v = g.instr? v
  types : g.KeepsTypes g'
  anchors : ∀ {o}, g.Anchors o → g'.Anchors o

theorem Grown.refl (g : Graph) : g.Grown g := ⟨Nat.le_refl _, fun _ => rfl, .refl g, id⟩

theorem Grown.trans {g'' : Graph} (h : g.Grown g') (h' : g'.Grown g'') : g.Grown g'' :=
  ⟨Nat.le_trans h.size h'.size,
    fun hv => (h'.instr (Nat.lt_of_lt_of_le hv h.size)).trans (h.instr hv),
    h.types.trans h'.types, fun ho => h'.anchors (h.anchors ho)⟩

/-- Reading leaves instructions as they are, -/
theorem Holds.grown (h : g.Holds g') : g.Grown g' := by
  refine ⟨Nat.le_of_not_lt fun hlt => ?_, fun {v} hv => ?_, fun o ty ho => ?_, h.anchors⟩
  · obtain ⟨x, hx⟩ := exists_value? (v := ⟨g'.values.size⟩) hlt
    exact Nat.lt_irrefl _ (index_lt_of_value? (h.value hx))
  · obtain ⟨x, hx⟩ := exists_value? hv
    unfold instr?
    rw [hx, h.value hx]
  · cases o with
    | lit c => exact ho
    | undef ty' => exact ho
    | value v =>
      obtain ⟨x, hx, rfl⟩ := Option.map_eq_some_iff.1 ho
      exact typeOf?_value (h.value hx)

/-- so does naming values, -/
theorem Alike.grown (h : g.Alike g') : g.Grown g' :=
  ⟨Nat.le_of_eq h.size.symm, fun _ => h.instr? _, fun o _ ho => (h.typeOf? o).trans ho, h.anchors⟩

/-- and so does putting in a new one. -/
theorem grown_withInstr (g : Graph) (b : BlockId) (place : Nat) (ty : Ty) (origin : Origin)
    (i : Instr) : g.Grown (g.withInstr b place ty origin i) := by
  refine ⟨?_, fun {u} hu => ?_, g.keepsTypes_withInstr _ _ _ _ _, fun ho w hw =>
    (g.attached_withInstr _ _ _ _ _ w).2 (.inr (ho w hw))⟩
  · rw [size_withInstr]
    exact Nat.le_succ _
  · rw [instr?_withInstr, if_neg]
    rintro rfl
    exact Nat.lt_irrefl _ hu

theorem Grown.evaluate (h : g.Grown g') (ha : g.Anchored) (n : Nat) (ho : g.Knows o) :
    g'.evaluate inputs n o = g.evaluate inputs n o := by
  induction n generalizing o with
  | zero => cases o <;> rfl
  | succ n ih =>
    cases o with
    | lit c => rfl
    | undef ty => rfl
    | value v =>
      unfold Graph.evaluate
      rw [h.instr (ho v rfl)]
      cases hi : g.instr? v with
      | none => rfl
      | some i =>
        have hargs : i.instr.operands.mapM (g'.evaluate inputs n) =
            i.instr.operands.mapM (g.evaluate inputs n) :=
          mapM_congr fun a ham => ih (ha.instr hi a ham).knows
        simp only [hargs]

/-- **A growing graph keeps values.** -/
theorem Grown.denotes (h : g.Grown g') (ha : g.Anchored) (ho : g.Knows o) :
    g'.Denotes inputs o c ↔ g.Denotes inputs o c := by
  unfold Denotes
  simp only [h.evaluate ha _ ho]

end Graph

/-! ## 3. Types of values -/

/-- A choice between literals is one of its two arms. -/
theorem exists_of_fold_select {cs : List Literal} {c : Literal} {ty : Ty}
    (hf : fold .select cs ty = some c) :
    ∃ k a b, cs = [k, a, b] ∧ c = if k.isTrue then a else b := by
  have hh := holdsLiterals_of_fold hf
  unfold fold at hf
  rw [if_pos hh] at hf
  match cs, hf with
  | [k, a, b], hf => exact ⟨k, a, b, rfl, (Option.some.inj hf).symm⟩
  | [], hf | [_], hf | [_, _], hf | _ :: _ :: _ :: _ :: _, hf => cases hf

theorem Graph.typeOf?_of_instr {g : Graph} {v : ValueId} {i : OwnedInstr}
    (h : g.instr? v = some i) : g.typeOf? (.value v) = some i.ty := by
  obtain ⟨x, hx, -, ht, -⟩ := Graph.instr?_eq_some.1 h
  rw [typeOf?_value hx, ht]

namespace Graph

variable {g : Graph} {inputs : ValueId → Option Literal} {o : Operand} {c : Literal}

/-- The instruction gives literals of its type: one bit if it compares or looks a bit up, and the
    arms of a choice are of the type of the choice. -/
structure Gives (g : Graph) (i : OwnedInstr) : Prop where
  op : i.instr.op ≠ .select → i.instr.op.Yields i.ty
  arms : ∀ {k a b}, i.instr.op = .select → i.instr.operands = [k, a, b] →
    g.typeOf? a = some i.ty ∧ g.typeOf? b = some i.ty

/-- **Every instruction gives literals of its type.** -/
def Resulting (g : Graph) : Prop := ∀ v i, g.instr? v = some i → g.Gives i

/-- What is folded from literals of the types of the operands is of the type of the instruction. -/
theorem Gives.ty_of_fold {i : OwnedInstr} (h : g.Gives i) {cs : List Literal}
    (htypes : List.Forall₂ (fun o c => g.typeOf? o = some c.ty) i.instr.operands cs)
    (hf : fold i.instr.op cs i.ty = some c) : c.ty = i.ty := by
  by_cases hop : i.instr.op = .select
  · rw [hop] at hf
    obtain ⟨k, a, b, rfl, rfl⟩ := exists_of_fold_select hf
    generalize hos : i.instr.operands = os at htypes
    match os, htypes with
    | [_, _, _], .cons _ (.cons ha (.cons hb .nil)) =>
      obtain ⟨hyes, hno⟩ := h.arms hop hos
      split
      · exact Option.some.inj (ha.symm.trans hyes)
      · exact Option.some.inj (hb.symm.trans hno)
  · exact BitFlow.ty_of_fold _ (h.op hop) hf

/-- **Values are of the type of the operand**, if the data of port reads are. -/
theorem Resulting.of_denotes (h : g.Resulting)
    (hin : ∀ {v c}, inputs v = some c → g.typeOf? (.value v) = some c.ty)
    (hc : g.Denotes inputs o c) : g.typeOf? o = some c.ty := by
  obtain ⟨n, hn⟩ := hc
  induction n generalizing o c with
  | zero =>
    cases o with
    | lit a =>
      cases hn
      rfl
    | undef ty => cases hn
    | value v => cases hn
  | succ n ih =>
    cases o with
    | lit a =>
      cases hn
      rfl
    | undef ty => cases hn
    | value v =>
      obtain ⟨i, hi⟩ := Denotes.exists_instr ⟨_, hn⟩
      cases hu : i.instr.portUse with
      | some u =>
        rw [evaluate_port hi hu] at hn
        split at hn
        · exact hin hn
        · cases hn
      | none =>
        rw [evaluate_code hi hu] at hn
        obtain ⟨cs, hcs, hf⟩ := Option.bind_eq_some_iff.1 hn
        rw [typeOf?_of_instr hi,
          (h v i hi).ty_of_fold ((mapM_eq_some_iff.1 hcs).imp fun _ _ ha => ih ha) hf]

end Graph

end BitFlow
