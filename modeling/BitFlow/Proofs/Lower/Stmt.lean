import BitFlow.Proofs.Lower.Loop

/-!
# Lowering statements

All statements are lowered as they should be: by induction on the statements, from one lemma per
form.

Main statement: `Lower.lowers_lowerStmts`.
-/

namespace BitFlow

namespace Lower

variable {w : World} {prog : Program} {T : Prop}

section Typed

variable {vars : List Variable} {ports : List Port}

/-! ## 1. What strict types say -/

theorem typed_assign {x : VarId} {ss : List Selector} {e : Expr}
    (h : Stmt.typed vars ports (.assign x ss e) = true) :
    ∃ ty, e.typeIn vars = some ty ∧ targetType vars x ss = some ty := by
  rw [Stmt.typed, Bool.and_eq_true] at h
  obtain ⟨ty, hty⟩ := Option.isSome_iff_exists.1 h.1
  exact ⟨ty, hty, (eq_of_beq h.2).symm.trans hty⟩

theorem typed_read {q : PortId} {x : VarId} (h : Stmt.typed vars ports (.read q x) = true) :
    ∃ port d, ports[q.index]? = some port ∧ variableById? vars x = some d ∧ port.ty = d.ty := by
  rw [Stmt.typed] at h
  obtain ⟨port, hport, hty⟩ := (Option.any_eq_true _ _).1 h
  obtain ⟨d, hd, he⟩ := Option.map_eq_some_iff.1 (eq_of_beq hty)
  exact ⟨port, d, hport, hd, he.symm⟩

theorem typed_write {q : PortId} {e : Expr} (h : Stmt.typed vars ports (.write q e) = true) :
    ∃ port, ports[q.index]? = some port ∧ e.typeIn vars = some port.ty := by
  rw [Stmt.typed] at h
  obtain ⟨port, hport, hty⟩ := (Option.any_eq_true _ _).1 h
  exact ⟨port, hport, eq_of_beq hty⟩

end Typed

/-! ## 2. All statements -/

/-- What is asked of the declarations of a program. -/
structure Declared (prog : Program) : Prop where
  vars : ∀ {x d}, variableById? prog.vars x = some d → d.ty.holdsLiterals = true
  ports : ∀ {q port}, prog.portAt? q = some port → port.id = q

mutual

/-- **A statement.** -/
theorem lowers_lowerStmt (hT : T → Declared prog) (s : Stmt) {step : Act}
    {advance : BlockId → Lower BlockId} (ha : Lowers w prog.vars T .skip step advance)
    (ht : T → Stmt.typed prog.vars prog.ports s = true) :
    Lowers w prog.vars T step (w.exec prog.ports s) (lowerStmt prog advance s) := by
  match s with
  | .assign x ss e =>
    exact lowers_assign (fun h => (hT h).vars) fun h => typed_assign (ht h)
  | .read q x =>
    exact lowers_portRead (fun h => (hT h).ports) fun h => typed_read (ht h)
  | .write q e =>
    exact lowers_portWrite (fun h => (hT h).ports) fun h => typed_write (ht h)
  | .branch arms otherwise =>
    have hb : T → Stmt.armsTyped prog.vars prog.ports arms = true ∧
        Stmt.allTyped prog.vars prog.ports otherwise = true := fun h => by
      have := ht h
      rwa [Stmt.typed, Bool.and_eq_true] at this
    exact lowers_branch (fun label b join =>
      lowersArms_lowerArms hT arms ha (fun h => (hb h).1) label b join 0)
      (lowers_lowerStmts hT otherwise ha fun h => (hb h).2)
  | .whileLoop cond body =>
    have hb : T → (cond.typeIn prog.vars).isSome = true ∧
        Stmt.allTyped prog.vars prog.ports body = true := fun h => by
      have := ht h
      rwa [Stmt.typed, Bool.and_eq_true] at this
    exact lowers_loop (fun h => (hb h).1)
      (lowers_lowerStmts hT body Lowers.pure fun h => (hb h).2) Lowers.pure
  | .forLoop init cond steps body =>
    have hb : T → ((Stmt.allTyped prog.vars prog.ports init = true ∧
        (cond.typeIn prog.vars).isSome = true) ∧ Stmt.allTyped prog.vars prog.ports steps = true) ∧
        Stmt.allTyped prog.vars prog.ports body = true := fun h => by
      have := ht h
      rwa [Stmt.typed, Bool.and_eq_true, Bool.and_eq_true, Bool.and_eq_true] at this
    have hsteps : Lowers w prog.vars T .skip (w.execAll prog.ports steps)
        (lowerStmts prog pure steps) :=
      lowers_lowerStmts hT steps Lowers.pure fun h => (hb h).1.2
    exact (lowers_lowerStmts hT init ha fun h => (hb h).1.1.1).andThen
      (lowers_loop (fun h => (hb h).1.1.2)
        (lowers_lowerStmts hT body hsteps fun h => (hb h).2) hsteps)
  | .breakLoop => exact lowers_breakLoop
  | .continueLoop => exact lowers_continueLoop ha

/-- **Statements one after the other.** -/
theorem lowers_lowerStmts (hT : T → Declared prog) (ss : List Stmt) {step : Act}
    {advance : BlockId → Lower BlockId} (ha : Lowers w prog.vars T .skip step advance)
    (ht : T → Stmt.allTyped prog.vars prog.ports ss = true) :
    Lowers w prog.vars T step (w.execAll prog.ports ss) (lowerStmts prog advance ss) := by
  match ss with
  | [] => exact Lowers.pure
  | s :: ss =>
    have hs : T → Stmt.typed prog.vars prog.ports s = true ∧
        Stmt.allTyped prog.vars prog.ports ss = true := fun h => by
      have := ht h
      rwa [Stmt.allTyped, Bool.and_eq_true] at this
    exact (lowers_lowerStmt hT s ha fun h => (hs h).1).andThen
      (lowers_lowerStmts hT ss ha fun h => (hs h).2)

/-- **The arms of a conditional.** -/
theorem lowersArms_lowerArms (hT : T → Declared prog) (arms : List (Expr × List Stmt)) {step : Act}
    {advance : BlockId → Lower BlockId} (ha : Lowers w prog.vars T .skip step advance)
    (ht : T → Stmt.armsTyped prog.vars prog.ports arms = true) (label : String)
    (b join : BlockId) (i : Nat) :
    LowersArms w prog.vars prog.ports T step b join arms
      (lowerArms prog advance label b join i arms) := by
  match arms with
  | [] => exact lowersArms_nil
  | (cond, body) :: rest =>
    have hs : T → ((cond.typeIn prog.vars).isSome = true ∧
        Stmt.allTyped prog.vars prog.ports body = true) ∧
        Stmt.armsTyped prog.vars prog.ports rest = true := fun h => by
      have := ht h
      rwa [Stmt.armsTyped, Bool.and_eq_true, Bool.and_eq_true] at this
    exact lowersArms_cons (fun h => (hs h).1.1)
      (lowers_lowerStmts hT body ha fun h => (hs h).1.2)
      (lowersArms_lowerArms hT rest ha (fun h => (hs h).2) label b join (i + 1))

end

end Lower

end BitFlow
