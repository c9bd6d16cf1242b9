import BitFlow.Proofs.Action.Compositional

/-!
# Properties of statements without control flow

What a plain statement does is done at the cursor, or it reads a variable, marks a value, records a
new content or names it. These parts are fewer and larger than those that reads are made of, so a
property that a read restores only at its end is one of statements all the same.

Main statements: `Build.write_eq` -- a new content is christened; `Storing.lowerExpr`,
`Storing.write`, `Storing.assign` with its companions -- a property that the parts have and that
sequences inherit holds of expressions, writes and statements without control flow.
-/

namespace BitFlow

namespace Lower

/-! ## 1. The parts -/

/-- **A property of actions that sequences inherit and that the parts have** of which statements
    without control flow are made. -/
structure Storing (P : (α : Type) → Lower α → Prop) : Prop extends Emissive P where
  read : ∀ x b, P Operand (tracking (Track.read x b))
  markPartial : ∀ x o, P Unit (onBench (Build.markPartial x o))
  record : ∀ x b o, P Unit (tracking (Track.onTables (·.record x b o)))
  christen : ∀ x o, P PUnit (tracking (modify (Tracked.christened x o)))

/-- A property that the parts of a read have is one of reads. -/
theorem Compositional.storing {P : (α : Type) → Lower α → Prop} (h : Compositional P) :
    Storing P where
  toEmissive := h.toEmissive
  read := h.read
  markPartial := h.markPartial
  record x b o := h.onTables _ (Reaching.plain_record x b o)
  christen := h.christen

namespace Storing

open Emissive (build_edit)

variable {P : (α : Type) → Lower α → Prop} (h : Storing P)

include h

/-- **Lowering an expression.** -/
theorem lowerExpr (e : Expr) : P Operand (onBench (Build.lowerExpr e)) :=
  h.toEmissive.lowerExpr h.read e

/-- **Lowering a condition.** -/
theorem lowerCondition (e : Expr) : P Operand (onBench (Build.lowerCondition e)) :=
  h.toEmissive.lowerCondition h.read e

theorem splice (decl : Variable) (r : BitRange) (b : BlockId) (o : Operand) (site : String) :
    P Operand (onBench (Build.splice decl r b o site)) := by
  unfold Build.splice
  dsimp only
  by_cases harr : decl.isArray = true
  · rw [if_pos harr]
    exact h.throw _
  rw [if_neg harr]
  by_cases hw : ¬ r.Within decl.ty.width
  · rw [if_pos hw]
    exact h.throw _
  rw [if_neg hw]
  refine h.build_bind (build_edit (h.operandType o)) fun found => ?_
  by_cases hwidth : found.width ≠ r.width
  · rw [if_pos hwidth]
    exact h.throw _
  rw [if_neg hwidth]
  refine h.build_look (fun _ _ => rfl) (fun _ => rfl) fun s => ?_
  by_cases hcur : s.cursor.block ≠ b
  · rw [if_pos hcur]
    exact h.throw _
  rw [if_neg hcur]
  refine h.build_bind (h.read decl.id b) fun old => ?_
  refine h.sliceIf fun above => h.sliceIf fun below => ?_
  refine h.build_bind (h.concat ..) fun joined => h.build_bind (h.cast ..) fun whole => ?_
  exact h.build_bind (h.markPartial decl.id whole) fun _ => h.pure _

end Storing

/-! ## 2. Writing -/

/-- What reads and expressions are made of keeps the declarations. -/
theorem compositional_vars : Compositional fun _ x => Keeps (fun l => l.bench.reaching.vars) x := by
  have hedit : ∀ {α : Type} (x : Edit α), Keeps (fun l => l.bench.reaching.vars) (editing x) :=
    fun x l => (Ends.focus_iff _).2 ((Ends.focus_iff x).2 (.of_run fun _ _ _ => rfl))
  exact {
    pure := .pure
    throw := .throw
    bind := .bind
    look := fun _ _ hf => Keeps.get.bind hf
    block := fun _ hf => (hedit _).bind hf
    insertInstr := fun _ _ _ _ _ => hedit _
    setCursor := fun _ _ => rfl
    appendPhi := fun _ _ _ => hedit _
    pushIncoming := fun _ _ _ => hedit _
    updateValue := fun _ _ _ => hedit _
    replaceUses := fun _ _ => hedit _
    detach := fun _ => hedit _
    setForward := fun _ _ => hedit _
    sealed := fun _ => hedit _
    onTables := fun _ hf l => hf.vars l.bench.reaching
    christen := fun x o l => Tracked.vars_christened x o ⟨l.bench.graph, l.bench.reaching⟩ }

end Lower

namespace Build

/-- A mark on something that exists. -/
theorem ends_markPartial_knows (x : VarId) (o : Operand) (s : Bench) :
    Ends (markPartial x o) s (fun _ => True) fun _ t => t.graph.Knows o := by
  cases o with
  | lit c => exact fun _ hw => nomatch hw
  | undef ty => exact fun _ hw => nomatch hw
  | value v =>
    refine (Ends.focus_iff _).2 ((Ends.focus_iff _).2 ((Ends.bind_iff _ _).2 ?_))
    refine Edit.ends_value_or trivial fun y hy => ?_
    intro w hw
    cases hw
    exact Nat.lt_of_lt_of_eq (Graph.index_lt_of_value? hy) Array.size_modify.symm

/-- A part of the old content, if there is one, and what holds whatever it is. -/
theorem ends_sliceIf_skip {c : Prop} [Decidable c] {old : Operand} {msb lsb : Nat} {site : String}
    {α : Type} {f : List Operand → Build α} {s : Bench} {Q : α → Bench → Prop}
    (h : ∀ os t, Ends (f os) t (fun _ => True) Q) :
    Ends (if c then do
        let o ← (liftM (Emit.slice old msb lsb site) : Build Operand)
        let os ← pure [o]
        f os
      else do
        let os ← pure []
        f os) s (fun _ => True) Q := by
  split
  · exact Ends.skip fun o t => h [o] t
  · exact h [] s

/-- What a partial write answers exists, and the declarations are what they were. -/
theorem ends_splice_knows (decl : Variable) (r : BitRange) (b : BlockId) (o : Operand)
    (site : String) (s : Bench) : Ends (splice decl r b o site) s (fun _ => True) fun whole t =>
      t.graph.Knows whole ∧ t.reaching.vars = s.reaching.vars := by
  have hvars : Ends (splice decl r b o site) s (fun _ => True) fun _ t =>
      t.reaching.vars = s.reaching.vars :=
    (Ends.focus_iff _).1 (Lower.compositional_vars.storing.splice decl r b o site ⟨s, [], 0⟩)
  refine Ends.and ?_ hvars
  have hrest : ∀ (os : List Operand) (t : Bench), Ends (do
      let joined ← (liftM (Emit.concat os site) : Build Operand)
      let whole ← (liftM (Emit.cast joined decl.ty site) : Build Operand)
      markPartial decl.id whole
      pure whole) t (fun _ => True) fun whole t => t.graph.Knows whole := by
    intro os t
    refine Ends.skip fun joined t => Ends.skip fun whole t => ?_
    exact (Ends.bind_iff _ _).2 (ends_markPartial_knows decl.id whole t)
  unfold splice
  dsimp only
  by_cases harr : decl.isArray = true
  · rw [if_pos harr]
    trivial
  rw [if_neg harr]
  by_cases hw : ¬ r.Within decl.ty.width
  · rw [if_pos hw]
    trivial
  rw [if_neg hw]
  refine Ends.skip fun found t => ?_
  by_cases hwidth : found.width ≠ r.width
  · rw [if_pos hwidth]
    trivial
  rw [if_neg hwidth]
  refine Ends.skip fun now t => ?_
  by_cases hcur : now.cursor.block ≠ b
  · rw [if_pos hcur]
    trivial
  rw [if_neg hcur]
  refine Ends.skip fun old t => ?_
  exact ends_sliceIf_skip fun above t => ends_sliceIf_skip fun below t => hrest _ t

/-- Recording a new content and naming it, where there is something to name. -/
theorem run_record {s : Bench} {x : VarId} {d : Variable} {o : Operand}
    (hd : variableById? s.reaching.vars x = some d) (ho : s.graph.Knows o) (b : BlockId) :
    EStateM.run (do
      (liftM (Track.onTables (·.record x b o)) : Build Unit)
      (liftM (Track.nameAfter x o) : Build Unit)
      pure o) s = EStateM.run (do
      (liftM (Track.onTables (·.record x b o)) : Build Unit)
      (liftM (modify (·.christened x o) : Track PUnit) : Build PUnit)
      pure o) s := by
  have hname := Track.run_nameAfter (s := ⟨s.graph, s.reaching.record x b o⟩) hd ho
  show EStateM.run ((liftM (Track.nameAfter x o) : Build Unit) >>= fun _ => pure o)
    { s with reaching := s.reaching.record x b o } = _
  rw [EStateM.run_bind, show EStateM.run (liftM (Track.nameAfter x o) : Build Unit)
    { s with reaching := s.reaching.record x b o } = _ from focus_ok hname]
  rfl

/-- **A new content is christened**: its variable is declared, and it exists if it is a value. -/
theorem write_eq (x : VarId) (ranges : List BitRange) (b : BlockId) (o : Operand) :
    write x ranges b o = (do
      let decl ← (liftM (Track.declaration x) : Build Variable)
      let site := "write of " ++ decl.name
      let whole ←
        match ranges with
        | [] => do
            let found ← (liftM (Edit.operandType o) : Build Ty)
            if found = decl.ty then pure o
            else throw (.typeMismatch (.type decl.ty) (some found) site)
        | [r] => splice decl r b o site
        | _ => throw (.unsupported .severalIndices site)
      (liftM (Track.onTables (·.record x b whole)) : Build Unit)
      (liftM (modify (·.christened x whole) : Track PUnit) : Build PUnit)
      pure whole) := by
  funext s
  refine Ends.run_bind_congr ((Ends.focus_iff _).2 ?_)
  refine Track.ends_declaration (fun _ => trivial) fun d hd => ?_
  rcases ranges with _ | ⟨r, _ | ⟨r', ranges⟩⟩
  · refine Ends.run_bind_congr ((Ends.focus_iff _).2 ((Ends.focus_iff _).2 ?_))
    refine (Edit.ends_operandType_knows o _).mono fun found g hg => ?_
    obtain ⟨rfl, ho⟩ := hg
    split
    · exact run_record hd ho b
    · rfl
  · refine Ends.run_bind_congr ((ends_splice_knows d r b o _ s).mono fun whole t ht => ?_)
    exact run_record (d := d) (by rw [ht.2]; exact hd) ht.1 b
  · rfl

end Build

namespace Lower

namespace Storing

open Emissive (build_edit)

variable {P : (α : Type) → Lower α → Prop} (h : Storing P)

include h

/-- **Writing a variable.** -/
theorem write (x : VarId) (ranges : List BitRange) (b : BlockId) (o : Operand) :
    P Operand (onBench (Build.write x ranges b o)) := by
  rw [Build.write_eq]
  refine h.build_bind (h.declaration x) fun d => ?_
  have hrest : ∀ whole, P Operand (onBench (do
      (liftM (Track.onTables (·.record x b whole)) : Build Unit)
      (liftM (modify (·.christened x whole) : Track PUnit) : Build PUnit)
      Pure.pure whole)) := fun whole =>
    h.build_bind (h.record x b whole) fun _ =>
      h.build_bind (h.christen x whole) fun _ => h.pure _
  dsimp only
  split
  · refine h.build_bind (build_edit (h.operandType o)) fun found => ?_
    split
    · exact hrest o
    · exact h.throw _
  · exact h.build_bind (h.splice ..) hrest
  · exact h.build_bind (h.throw _) hrest

/-! ## 3. Statements without control flow -/

/-- **An assignment.** -/
theorem assign (x : VarId) (ss : List Selector) (e : Expr) (b : BlockId) :
    P BlockId (Lower.assign x ss e b) := by
  refine h.bind (h.enter b) fun _ => h.bind (h.declaration x) fun d => ?_
  dsimp only
  split
  · exact h.throw _
  refine h.bind (h.selectedRanges ..) fun ranges => h.bind (h.lowerExpr e) fun o => ?_
  refine h.bind (h.coerceTo ..) fun o => ?_
  exact h.bind (h.discard (h.write x ranges b o)) fun _ => h.pure _

/-- **A read of a port.** -/
theorem portRead (p : Program) (q : PortId) (x : VarId) (b : BlockId) :
    P BlockId (Lower.portRead p q x b) := by
  refine h.bind (h.enter b) fun _ => h.bind (h.declaration x) fun d => ?_
  refine h.bind (h.portFor ..) fun port => ?_
  dsimp only
  split
  · exact h.throw _
  refine h.bind (h.emit_bind (h.instr ..) fun _ => h.pure _) fun o => ?_
  refine h.bind (h.coerceTo ..) fun o => ?_
  exact h.bind (h.discard (h.write x [] b o)) fun _ => h.pure _

/-- **A write to a port.** -/
theorem portWrite (p : Program) (q : PortId) (e : Expr) (b : BlockId) :
    P BlockId (Lower.portWrite p q e b) := by
  refine h.bind (h.enter b) fun _ => h.bind (h.portFor ..) fun port => ?_
  refine h.bind (h.lowerExpr e) fun o => h.bind (h.coerceTo ..) fun o => ?_
  refine h.bind (h.discard (h.emit_bind (h.emit_operandType o) fun _ => h.instr ..)) fun _ => ?_
  exact h.pure _

end Storing

end Lower

end BitFlow
