import BitFlow.Proofs.Emit.Applied

/-!
# Emitting without a fault

An instruction can be put in wherever the cursor lies inside its block, and afterwards the cursor
still does. So an operator that is asked for at the right types is emitted, and the next one can be
emitted after it.

Main statements: `Emit.fits_slice`, `Emit.fits_concat`, `Emit.fits_cast` -- there is no fault, and
what has been emitted is what the operator asks for.
-/

namespace BitFlow

/-- **The cursor lies inside its block.** -/
def Pointed.Fits (p : Pointed) : Prop :=
  ∃ y, p.graph.block? p.cursor.block = some y ∧
    ∀ n, p.cursor.position = some n → n ≤ y.instrs.length

/-- The type of an operand that has one is answered. -/
theorem Edit.ends_typeOf?_some {g : Graph} {o : Operand} {ty : Ty} {R : Fault → Prop}
    {Q : Ty → Graph → Prop} (h : g.typeOf? o = some ty) (hQ : Q ty g) :
    Ends (Edit.operandType o) g R Q := by
  cases o with
  | lit c =>
    cases h
    exact hQ
  | undef ty' =>
    cases h
    exact hQ
  | value v =>
    obtain ⟨x, hx, rfl⟩ := Option.map_eq_some_iff.1 h
    unfold Edit.operandType
    rw [Ends.bind_iff, Edit.ends_value hx]
    exact hQ

namespace Emit

variable {p : Pointed} {R : Fault → Prop} {site : String}

theorem ends_operandType_some {o : Operand} {ty : Ty} {Q : Ty → Pointed → Prop}
    (h : p.graph.typeOf? o = some ty) (hQ : Q ty p) :
    Ends (liftM (Edit.operandType o) : Emit Ty) p R Q :=
  (ends_edit _).2 (Edit.ends_typeOf?_some h hQ)

theorem ends_operandTypes_some {os : List Operand} {tys : List Ty} {Q : List Ty → Pointed → Prop}
    (h : os.map p.graph.typeOf? = tys.map some) (hQ : Q tys p) :
    Ends (os.mapM fun o => (liftM (Edit.operandType o) : Emit Ty)) p R Q := by
  induction os generalizing tys Q with
  | nil =>
    rw [List.map_nil, eq_comm, List.map_eq_nil_iff] at h
    subst h
    rw [List.mapM_nil]
    exact hQ
  | cons o os ih =>
    cases tys with
    | nil => cases h
    | cons ty tys =>
      obtain ⟨ho, hos⟩ := List.cons.inj h
      rw [List.mapM_cons, Ends.bind_iff]
      refine ends_operandType_some ho ?_
      rw [Ends.bind_iff]
      exact ih hos hQ

/-- **An instruction is put in at a cursor that lies inside its block.** -/
theorem fits_instr {ty : Ty} {op : Opcode} {os : List Operand} {portUse : Option PortUse}
    {origin : Origin} (h : p.Fits) :
    Ends (instr ty op os portUse origin) p (fun _ => False) fun _ q => q.Fits := by
  obtain ⟨y, hy, hpos⟩ := h
  have hplace : p.cursor.position.getD y.instrs.length ≤ y.instrs.length := by
    cases hn : p.cursor.position with
    | none => exact Nat.le_refl _
    | some n => exact hpos n hn
  unfold instr
  rw [Ends.bind_iff, Ends.get_iff, Ends.bind_iff, ends_edit]
  refine Edit.ends_insertInstr hy (fun hlt => absurd hlt (Nat.not_lt_of_le hplace)) fun _ => ?_
  refine ⟨_, (Graph.block?_withInstr _ _ _ _ _ _ _).trans (congrArg (Option.map _) hy), ?_⟩
  intro n hn
  obtain ⟨m, hm, rfl⟩ := Option.map_eq_some_iff.1 hn
  have hlen : m ≤ y.instrs.length := hpos m hm
  -- the block has one instruction more, and the cursor stands one place further
  show m + 1 ≤ (if p.cursor.block = p.cursor.block then _ else _ : List ValueId).length
  rw [if_pos rfl, List.length_append, List.length_cons, List.length_take, List.length_drop]
  omega

theorem fits_apply {ty : Ty} {op : Opcode} {os : List Operand} (h : p.Fits) :
    Ends (apply ty op os) p (fun _ => False) fun _ q => q.Fits := by
  unfold apply
  split
  · exact h
  · exact Ends.seq (fits_instr h) fun _ _ hq => hq

/-- **A slice inside the operand is emitted.** -/
theorem fits_slice {a : Operand} {ty : Ty} {msb lsb : Nat} (h : p.Fits)
    (ha : p.graph.typeOf? a = some ty) (hl : lsb ≤ msb) (hm : msb < ty.width) :
    Ends (slice a msb lsb site) p (fun _ => False) fun o q => q.Fits ∧ Sliced p a msb lsb o q := by
  refine Ends.and ?_ ends_slice
  unfold slice
  rw [Ends.bind_iff]
  refine ends_operandType_some ha ?_
  rw [if_pos ⟨hl, hm⟩]
  dsimp only
  split
  · exact h
  · exact fits_apply h

/-- **Some parts are joined.** -/
theorem fits_concat {os : List Operand} {tys : List Ty} (h : p.Fits)
    (types : os.map p.graph.typeOf? = tys.map some) (hne : os ≠ []) :
    Ends (concat os site) p (fun _ => False) fun o q => q.Fits ∧ Joined p os o q := by
  refine Ends.and ?_ ends_concat
  unfold concat
  rw [Ends.bind_iff]
  refine ends_operandTypes_some types ?_
  dsimp only
  split
  · exact absurd rfl hne
  · split
    · exact fits_apply h
    · exact h
  · exact fits_apply h

/-- **An operand that has a type is put under another one.** -/
theorem fits_cast {a : Operand} {t ty : Ty} (h : p.Fits) (ha : p.graph.typeOf? a = some t)
    (hw : ty.width ≠ 0) :
    Ends (cast a ty site) p (fun _ => False) fun o q => q.Fits ∧ Converted p a ty o q := by
  refine Ends.and ?_ ends_cast
  unfold cast
  rw [if_neg hw, Ends.bind_iff]
  refine ends_operandType_some ha ?_
  split
  · exact h
  · exact fits_apply h

end Emit

end BitFlow
