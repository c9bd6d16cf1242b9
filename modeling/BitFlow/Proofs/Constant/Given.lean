import BitFlow.Proofs.Bits.Splice
import BitFlow.Proofs.Constant.Straight

/-!
# Evaluation where some operands are given

An operand can be evaluated once literals are given for what it depends on and what cannot be
computed: data of ports, phis, undefined operands. Operators are evaluated by folding.

What is emitted for an operator amounts to what folding gives, whether the operator was folded, was
left out because it gives its operand back, or became an instruction.

Main statements: `Graph.Amounts.unique` -- an operand amounts to one literal at most;
`Graph.Grown.amounts` -- and to the same one in a graph that has grown; `Emit.Sliced.amounts`,
`Emit.Joined.amounts`, `Emit.Converted.amounts` -- emitted slices, concatenations and casts.
-/

namespace BitFlow

namespace Graph

/-! ## 1. Evaluation -/

/-- The instruction of that name, unless it touches a port. -/
def code? (g : Graph) (v : ValueId) : Option OwnedInstr :=
  (g.instr? v).filter fun i => i.instr.portUse.isNone

/-- What an operand amounts to, where `given` says so of opaque operands; operands are followed
    through `n` instructions at most, and what is given is not followed further. -/
def amount (g : Graph) (given : Operand → Option Literal) : Nat → Operand → Option Literal
  | _, .lit c => some c
  | _, .undef ty => given (.undef ty)
  | 0, .value v => given (.value v)
  | n + 1, .value v =>
      (given (.value v)).or <| (g.code? v).bind fun i =>
        (i.instr.operands.mapM (amount g given n)).bind fun cs => fold i.instr.op cs i.ty

/-- **The operand amounts to `c`.** -/
def Amounts (g : Graph) (given : Operand → Option Literal) (o : Operand) (c : Literal) : Prop :=
  ∃ n, g.amount given n o = some c

variable {g g' : Graph} {given : Operand → Option Literal} {o : Operand} {os : List Operand}
  {c c' : Literal} {cs : List Literal} {v : ValueId} {i : OwnedInstr} {n m : Nat}

theorem code?_eq_some : g.code? v = some i ↔ g.instr? v = some i ∧ i.instr.portUse = none := by
  unfold code?
  rw [Option.filter_eq_some_iff, Option.isNone_iff_eq_none]

theorem amount_lit (n : Nat) (c : Literal) : g.amount given n (.lit c) = some c := by
  cases n <;> rfl

theorem amount_undef (n : Nat) (ty : Ty) :
    g.amount given n (.undef ty) = given (.undef ty) := by
  cases n <;> rfl

theorem amount_code (hv : given (.value v) = none) (hi : g.code? v = some i) :
    g.amount given (n + 1) (.value v) =
      (i.instr.operands.mapM (g.amount given n)).bind fun cs => fold i.instr.op cs i.ty := by
  rw [amount, hv, Option.none_or, hi]
  rfl

/-- An operand that amounts to a literal still does when it is followed further, in a graph that
    has all the instructions. -/
theorem amount_mono (hcode : ∀ {v i}, g.code? v = some i → g'.code? v = some i) (hle : n ≤ m)
    (h : g.amount given n o = some c) : g'.amount given m o = some c := by
  induction n generalizing o c m with
  | zero =>
    cases o with
    | lit a =>
      rw [amount_lit] at h ⊢
      exact h
    | undef ty =>
      rw [amount_undef] at h ⊢
      exact h
    | value v =>
      have hv : given (.value v) = some c := h
      cases m with
      | zero => exact hv
      | succ m => rw [amount, hv, Option.some_or]
  | succ n ih =>
    cases o with
    | lit a =>
      rw [amount_lit] at h ⊢
      exact h
    | undef ty =>
      rw [amount_undef] at h ⊢
      exact h
    | value v =>
      obtain ⟨m, rfl⟩ := Nat.exists_eq_add_of_le' hle
      rw [← Nat.add_assoc]
      cases hv : given (.value v) with
      | some a =>
        rw [amount, hv, Option.some_or] at h ⊢
        exact h
      | none =>
        rw [amount, hv, Option.none_or] at h
        obtain ⟨i, hi, h⟩ := Option.bind_eq_some_iff.1 h
        obtain ⟨cs, hcs, hf⟩ := Option.bind_eq_some_iff.1 h
        rw [amount_code hv (hcode hi)]
        refine Option.bind_eq_some_iff.2 ⟨cs, ?_, hf⟩
        rw [mapM_eq_some_iff] at hcs ⊢
        exact hcs.imp fun _ _ => ih (Nat.le_add_left n m)

/-- **An operand amounts to one literal at most.** -/
theorem Amounts.unique (h : g.Amounts given o c) (h' : g.Amounts given o c') : c = c' := by
  obtain ⟨n, hn⟩ := h
  obtain ⟨m, hm⟩ := h'
  have hmax := amount_mono id (Nat.le_max_left n m) hn
  rw [amount_mono id (Nat.le_max_right n m) hm] at hmax
  exact (Option.some.inj hmax).symm

theorem amounts_lit (c : Literal) : g.Amounts given (.lit c) c := ⟨0, rfl⟩

/-- Operands that amount to literals do so within one bound. -/
theorem exists_amount_all (h : List.Forall₂ (g.Amounts given) os cs) :
    ∃ n, os.mapM (g.amount given n) = some cs := by
  simp only [mapM_eq_some_iff]
  induction h with
  | nil => exact ⟨0, .nil⟩
  | cons ho _ ih =>
    obtain ⟨n, hn⟩ := ho
    obtain ⟨m, hm⟩ := ih
    exact ⟨max n m, .cons (amount_mono id (Nat.le_max_left n m) hn)
      (hm.imp fun _ _ => amount_mono id (Nat.le_max_right n m))⟩

/-- **An instruction that touches no port amounts to what folding gives.** -/
theorem amounts_code (hv : given (.value v) = none) (hi : g.code? v = some i)
    (hos : List.Forall₂ (g.Amounts given) i.instr.operands cs)
    (hf : fold i.instr.op cs i.ty = some c) : g.Amounts given (.value v) c := by
  obtain ⟨n, hn⟩ := exists_amount_all hos
  refine ⟨n + 1, ?_⟩
  rw [amount_code hv hi, hn]
  exact hf

/-! ## 2. A growing graph -/

/-- Nothing is given of values that the graph does not have. -/
def Confines (g : Graph) (given : Operand → Option Literal) : Prop :=
  ∀ v, g.Lacks v → given (.value v) = none

theorem Grown.confines (h : g.Grown g') (hg : g.Confines given) : g'.Confines given :=
  fun v hv => hg v (Nat.le_trans h.size hv)

/-- **A growing graph keeps what operands amount to.** -/
theorem Grown.amounts (h : g.Grown g') (ho : g.Amounts given o c) : g'.Amounts given o c := by
  obtain ⟨n, hn⟩ := ho
  refine ⟨n, amount_mono (fun {v i} hi => ?_) (Nat.le_refl n) hn⟩
  rw [code?_eq_some] at hi ⊢
  rwa [h.instr (attached_of_instr? hi.1).index_lt]

theorem Grown.amounts_all (h : g.Grown g') (hos : List.Forall₂ (g.Amounts given) os cs) :
    List.Forall₂ (g'.Amounts given) os cs := hos.imp fun _ _ => h.amounts

end Graph

/-! ## 3. What has been emitted -/

theorem Ty.eq_unsigned {ty : Ty} (h : ty.signed = false) : ty = .unsigned ty.width :=
  congrArg (Ty.mk ty.width) h

section Emitted

variable {p q : Pointed} {ty : Ty} {op : Opcode} {os : List Operand} {a o : Operand}
  {given : Operand → Option Literal} {cs : List Literal} {k c : Literal}

theorem Put.grown {origin : Origin} {i : Instr} {v : ValueId} (h : Put p ty origin i v q) :
    p.graph.Grown q.graph := by
  obtain ⟨place, hg⟩ := h.graph
  rw [hg]
  exact p.graph.grown_withInstr _ place ty origin i

theorem Applied.grown (h : Applied p ty op os o q) : p.graph.Grown q.graph := by
  cases h with
  | folded => exact .refl _
  | put _ put => exact put.grown

theorem Applied.typeOf? (h : Applied p ty op os o q) (yields : op.Yields ty) :
    q.graph.typeOf? o = some ty := by
  cases h with
  | folded _ value => exact congrArg some (ty_of_fold op yields value)
  | put _ put =>
    obtain ⟨place, hg⟩ := put.graph
    rw [hg, put.name, Graph.typeOf?_withInstr, if_pos rfl]

/-- Literals amount to themselves. -/
theorem Graph.eq_of_amounts_lits {g : Graph} {ks : List Literal}
    (h : List.Forall₂ (g.Amounts given) (ks.map .lit) cs) : ks = cs := by
  rw [List.forall₂_map_left_iff] at h
  exact List.forall₂_eq_eq_eq ▸ h.imp fun k _ hk => (Graph.amounts_lit k).unique hk

/-- **An operator that has been applied amounts to what folding gives.** -/
theorem Applied.amounts (h : Applied p ty op os o q) (hg : p.graph.Confines given)
    (hos : List.Forall₂ (p.graph.Amounts given) os cs) (hf : fold op cs ty = some c) :
    q.graph.Amounts given o c := by
  cases h with
  | folded literals value =>
    subst literals
    cases Graph.eq_of_amounts_lits hos
    cases value.symm.trans hf
    exact Graph.amounts_lit _
  | put stuck put =>
    obtain ⟨place, hgraph⟩ := put.graph
    have hv := hg _ (Nat.le_of_eq (congrArg ValueId.index put.name).symm)
    refine Graph.amounts_code (i := ⟨p.cursor.block, ty, ⟨op, os, none⟩⟩) hv ?_
      (put.grown.amounts_all hos) hf
    rw [Graph.code?_eq_some, hgraph, put.name, Graph.instr?_withInstr, if_pos rfl]
    exact ⟨rfl, rfl⟩

namespace Emit

theorem Sliced.grown {msb lsb : Nat} (h : Sliced p a msb lsb o q) : p.graph.Grown q.graph := by
  cases h with
  | all => exact .refl _
  | applied _ _ _ _ applied => exact applied.grown

theorem Joined.grown (h : Joined p os o q) : p.graph.Grown q.graph := by
  cases h with
  | single => exact .refl _
  | applied _ _ _ applied => exact applied.grown

theorem Sliced.typeOf? {msb lsb : Nat} (h : Sliced p a msb lsb o q) :
    q.graph.typeOf? o = some (.unsigned (msb - lsb + 1)) := by
  cases h with
  | all type => exact type
  | applied _ _ _ _ applied => exact applied.typeOf? trivial

theorem Converted.typeOf? (h : Converted p a ty o q) : q.graph.typeOf? o = some ty := by
  cases h with
  | same type => exact type
  | applied _ _ applied => exact applied.typeOf? trivial

/-- **A slice that has been emitted.** -/
theorem Sliced.amounts {msb lsb : Nat} (h : Sliced p a msb lsb o q) (hg : p.graph.Confines given)
    (ha : p.graph.Amounts given a k) (ht : p.graph.typeOf? a = some k.ty)
    (hh : k.ty.holdsLiterals = true) : q.graph.Amounts given o (k.slice msb lsb) := by
  cases h with
  | all type le lt =>
    have hk : k.ty = .unsigned (msb - lsb + 1) := Option.some.inj (ht.symm.trans type)
    have hm : msb < k.ty.width := by
      rw [hk]
      exact lt
    have hall := (fold_slice le hm hh).symm.trans (fold_slice_all hk le hm hh)
    rw [Option.some.inj hall]
    exact ha
  | applied type le lt _ applied =>
    cases ht.symm.trans type
    exact applied.amounts hg (.cons ha .nil) (fold_slice le lt hh)

/-- The type of parts that have been joined, if a word holds its width. -/
theorem Joined.typeOf? {tys : List Ty} (h : Joined p os o q)
    (types : os.map p.graph.typeOf? = tys.map some) (hw : widthSum tys ≤ wordMax) :
    q.graph.typeOf? o = some (.unsigned (widthSum tys)) := by
  cases h with
  | @single o ty sole type unsigned =>
    subst sole
    obtain ⟨t, rfl, ht⟩ := List.map_eq_singleton_iff.1 types.symm
    cases ht.trans type
    rw [show widthSum [ty] = ty.width from Nat.add_zero _, ← Ty.eq_unsigned unsigned]
    exact type
  | @applied tys' _ _ nonempty types' several applied =>
    have htys : tys' = tys :=
      (List.map_inj_right fun _ _ => Option.some.inj).1 (types'.symm.trans types)
    rw [htys, joinedWidth_eq, Nat.min_eq_left hw] at applied
    exact applied.typeOf? trivial

/-- What has been joined has a type. -/
theorem Joined.typed (h : Joined p os o q) : ∃ ty, q.graph.typeOf? o = some ty := by
  cases h with
  | single _ type _ => exact ⟨_, type⟩
  | applied _ _ _ applied => exact ⟨_, applied.typeOf? trivial⟩

/-- **Parts that have been joined.** -/
theorem Joined.amounts (h : Joined p os o q) (hg : p.graph.Confines given)
    (hos : List.Forall₂ (p.graph.Amounts given) os cs)
    (types : os.map p.graph.typeOf? = (cs.map Literal.ty).map some)
    (hw : totalWidth cs ≤ wordMax)
    (hf : fold .concat cs (.unsigned (totalWidth cs)) = some c) : q.graph.Amounts given o c := by
  cases h with
  | @single o ty sole type unsigned =>
    subst sole
    cases hos with
    | @cons _ k _ _ ho hnil =>
      cases hnil
      -- a single unsigned part is joined to itself
      have hk : k.ty = ty := Option.some.inj ((List.cons.inj types).1.symm.trans type)
      rw [show totalWidth [k] = k.ty.width from Nat.add_zero _, hk, ← Ty.eq_unsigned unsigned,
        ← hk] at hf
      cases (fold_concat_one (holdsLiterals_of_fold hf)).symm.trans hf
      exact ho
  | @applied tys _ _ nonempty types' several applied =>
    have htys : tys = cs.map Literal.ty :=
      (List.map_inj_right fun _ _ => Option.some.inj).1 (types'.symm.trans types)
    have hwidth : joinedWidth tys = totalWidth cs := by
      rw [joinedWidth_eq, htys, ← totalWidth_eq, Nat.min_eq_left hw]
    rw [hwidth] at applied
    exact applied.amounts hg hos hf

/-- **An operand that has been put under another type.** -/
theorem Converted.amounts (h : Converted p a ty o q) (hg : p.graph.Confines given)
    (ha : p.graph.Amounts given a k) (ht : p.graph.typeOf? a = some k.ty)
    (hf : fold .cast [k] ty = some c) : q.graph.Amounts given o c := by
  cases h with
  | same type =>
    cases ht.symm.trans type
    cases (fold_cast_self (holdsLiterals_of_fold hf)).symm.trans hf
    exact ha
  | applied _ _ applied => exact applied.amounts hg (.cons ha .nil) hf

end Emit

end Emitted

end BitFlow
