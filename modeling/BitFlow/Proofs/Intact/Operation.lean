import BitFlow.Proofs.Constant.PartialWrite
import BitFlow.Proofs.Intact.Bench

/-!
# Failed operations leave no trace

A graph is built by operations on its blocks and edges, by operators at the cursor, and by writes,
reads and seals. Several of them change more than one thing: an edge enters two blocks and a list of
users, a partial write reads and then puts in up to four instructions, a seal takes a phi off the
waiting list before it fills it. Nevertheless a failed operation changes nothing. Operations on the
graph and operators check everything before their first change; the others may change something and
go on, but on a bench that is intact they do not fail any more from there.

`Fault.endless` is left out. It is no answer: where a search meets a cycle of single predecessors it
has no end, and the fault stands for that. What is shown of reads holds for every bound on their
length.

Main statement: `Bench.Reached.unchanged`.
-/

namespace BitFlow

/-! ## 1. Operations -/

/-- The operators that put instructions at the cursor, with all their arguments. -/
inductive Operator where
  | unary (op : Opcode) (arg : Operand) (site : String)
  | binary (op : Opcode) (lhs rhs : Operand) (site : String)
  | compare (op : Opcode) (lhs rhs : Operand) (site : String)
  | concat (parts : List Operand) (site : String)
  | index (base pos : Operand) (site : String)
  | slice (base : Operand) (msb lsb : Nat) (site : String)
  | select (cond yes no : Operand) (site : String)
  | cast (arg : Operand) (ty : Ty) (site : String)
  | coerce (lhs rhs : Operand) (site : String)
  | coerceTo (o : Operand) (ty : Ty) (site : String)
  | condition (o : Operand) (site : String)
  | portRead (p : PortId) (ty : Ty)
  | portWrite (p : PortId) (datum : Operand)

/-- An operator carried out. -/
def Operator.run : Operator → Emit Unit
  | .unary op arg site => discard (Emit.unary op arg site)
  | .binary op lhs rhs site => discard (Emit.binary op lhs rhs site)
  | .compare op lhs rhs site => discard (Emit.compare op lhs rhs site)
  | .concat parts site => discard (Emit.concat parts site)
  | .index base pos site => discard (Emit.index base pos site)
  | .slice base msb lsb site => discard (Emit.slice base msb lsb site)
  | .select cond yes no site => discard (Emit.select cond yes no site)
  | .cast arg ty site => discard (Emit.cast arg ty site)
  | .coerce lhs rhs site => discard (Emit.coerce lhs rhs site)
  | .coerceTo o ty site => discard (Emit.coerceTo o ty site)
  | .condition o site => discard (Emit.condition o site)
  | .portRead p ty => discard (Emit.portRead p ty)
  | .portWrite p datum => discard (Emit.portWrite p datum)

/-- The operations with which a graph is built, with all their arguments. -/
inductive Operation where
  | addBlock (label : String) (kind : BlockKind)
  | addEdge (source : BlockId) (cond : Option Operand) (target : BlockId)
  | emit (op : Operator)
  | write (x : VarId) (ranges : List BitRange) (b : BlockId) (o : Operand)
  | read (x : VarId) (b : BlockId)
  | sealBlock (b : BlockId)

/-- An operation carried out. -/
def Operation.run : Operation → Build Unit
  | .addBlock label kind => discard (liftM (Edit.addBlock label kind) : Build BlockId)
  | .addEdge source cond target => Edit.addEdge source cond target
  | .emit op => op.run
  | .write x ranges b o => discard (Build.write x ranges b o)
  | .read x b => discard (liftM (Track.read x b) : Build Operand)
  | .sealBlock b => Track.sealBlock b

/-- **The benches that can be built**: by operations, by lowering expressions and by moving the
    cursor, from an empty program, whether they fail or not, as long as they come to an end. -/
inductive Bench.Reached : Bench → Prop where
  | fresh (name : String) (vars : List Variable) (nameValues : Bool) (literalLimit : Nat) :
      Reached (.fresh name vars nameValues literalLimit)
  | moved {s : Bench} (h : Reached s) (b : BlockId) (position : Option Nat) :
      Reached { s with cursor := ⟨b, position⟩ }
  | ran {s : Bench} (h : Reached s) (op : Operation)
      (ends : fault? op.run s ≠ some .endless) : Reached (after op.run s)
  | lowered {s : Bench} (h : Reached s) (e : Expr)
      (ends : fault? (Build.lowerExpr e) s ≠ some .endless) :
      Reached (after (Build.lowerExpr e) s)

/-- The cursor has no position, or its position is no larger than the number of instructions of its
    block. -/
def Bench.CursorInside (s : Bench) : Prop :=
  ∀ n y, s.cursor.position = some n → s.graph.block? s.cursor.block = some y → n ≤ y.instrs.length

/-! ## 2. Operators -/

theorem Emit.Single.discard {α : Type} {x : Emit α} (hx : Emit.Single x) :
    Emit.Single (discard x) := hx.map fun _ => ()

/-- Every operator puts in one instruction at most, as its last step. -/
theorem Operator.single (op : Operator) : Emit.Single op.run := by
  cases op with
  | unary op a site => exact (Emit.single_unary op a site).discard
  | binary op a b site => exact (Emit.single_binary op a b site).discard
  | compare op a b site => exact (Emit.single_compare op a b site).discard
  | concat os site => exact (Emit.single_concat os site).discard
  | index a k site => exact (Emit.single_index a k site).discard
  | slice a msb lsb site => exact (Emit.single_slice a msb lsb site).discard
  | select c a b site => exact (Emit.single_select c a b site).discard
  | cast a ty site => exact (Emit.single_cast a ty site).discard
  | coerce a b site => exact (Emit.single_coerce a b site).discard
  | coerceTo o ty site => exact (Emit.single_coerceTo o ty site).discard
  | condition o site => exact (Emit.single_condition o site).discard
  | portRead p ty => exact (Emit.single_portRead p ty).discard
  | portWrite p o => exact (Emit.single_portWrite p o).discard

/-! ## 3. Partial writes -/

variable {vars : List Variable} {s : Bench}

/-- A read at a block that does not exist finds what is recorded there, or fails. -/
theorem Track.looks_read_unknown {s : Tracked} {x : VarId} {b : BlockId}
    (hb : s.graph.block? b = none) :
    Leaves (read x b) s (fun _ t => t = s) fun _ t => t = s := by
  unfold read readWithin
  rw [Leaves.bind_iff, Leaves.get_iff, Leaves.bind_iff, Leaves.get_iff]
  split
  · exact rfl
  · split
    · exact rfl
    · rw [Leaves.bind_iff]
      refine looked_declaration (fun _ => rfl) fun d hd => ?_
      refine looked_block (fun _ => rfl) fun y hy => ?_
      cases hb.symm.trans hy

/-- Nothing is put into a block that does not exist. -/
theorem Build.looks_single {α : Type} {x : Emit α} (hx : Emit.Single x)
    (hb : s.graph.block? s.cursor.block = none) :
    Leaves (liftM x : Build α) s (fun _ t => t = s) fun _ t => t = s := by
  refine (Leaves.focus_iff _).2 ((hx ⟨s.graph, s.cursor⟩).mono (fun _ q hq => ?_) fun _ q hq => ?_)
  · subst hq
    rfl
  · rcases hq with rfl | ⟨_, _, _, _, hput⟩
    · rfl
    · obtain ⟨y, hy⟩ := hput.known
      cases hb.symm.trans hy

/-- What is put together in a block that does not exist leaves no instruction. -/
theorem Build.leaves_assemble_unknown {d : Variable} {r : BitRange} {old o : Operand}
    {site : String} (hb : s.graph.block? s.cursor.block = none) :
    Leaves (assemble d r old o site) s (fun _ t => t = s) fun _ _ => True := by
  have hslice : ∀ (c : Prop) [Decidable c] msb lsb, Leaves (sliceIf c old msb lsb site) s
      (fun _ t => t = s) fun _ t => t = s := by
    intro c _ msb lsb
    unfold sliceIf
    split
    · exact (looks_single (Emit.single_slice old msb lsb site) hb).seq fun _ _ ht => ht
    · exact rfl
  unfold assemble
  refine (hslice _ _ _).seq fun above t ht => ?_
  subst ht
  refine (hslice _ _ _).seq fun below t ht => ?_
  subst ht
  refine (looks_single (Emit.single_concat _ site) hb).seq fun joined t ht => ?_
  subst ht
  -- what has been converted has a type, so it exists and can be marked
  have htyped : Ends (liftM (Emit.cast joined d.ty site) : Build Operand) t (fun _ => True)
      fun whole t => t.graph.typeOf? whole = some d.ty :=
    (ends_emit _).2 (Emit.ends_cast.mono fun _ _ hwhole => hwhole.typeOf?)
  refine ((looks_single (Emit.single_cast joined d.ty site) hb).and htyped).seq
    fun whole t ⟨_, hty⟩ => ?_
  exact .of_ends ((Ends.bind_iff _ _).2 ((ends_markPartial (Graph.knows_of_typeOf? hty)).mono
    fun _ _ _ => trivial))

/-- **A splice that fails has changed nothing**, unless the read never comes to an end: after the
    read there is nothing left to fail, or the block does not exist. -/
theorem Build.leaves_splice_inside (hs : s.Intact vars) (hin : s.CursorInside) {d : Variable}
    (hd : variableById? s.reaching.vars d.id = some d) (r : BitRange) (b : BlockId) (o : Operand)
    (site : String) : Leaves (splice d r b o site) s (Unmoved s) fun _ _ => True := by
  refine leaves_splice (Unmoved.refl s) fun _ hr ty hty hwidth hcur => ?_
  subst hcur
  cases hb : s.graph.block? s.cursor.block with
  | none =>
    refine Leaves.mono (E := fun _ t => t = s) ?_ (fun _ _ ht => .inr ht) fun _ _ h => h
    refine Leaves.seq (P := fun _ t => t = s) ((Leaves.focus_iff _).2
      ((Track.looks_read_unknown (s := s.tracked) hb).mono (fun _ t ht => ?_) fun _ t ht => ?_))
      fun old t ht => ?_
    · subst ht
      rfl
    · subst ht
      rfl
    · subst ht
      exact leaves_assemble_unknown hb
  | some y =>
    refine Leaves.mono (E := fun e _ => e = .endless) ?_ (fun _ _ he => .inl he) fun _ _ h => h
    show Ends _ s (· = Fault.endless) _
    rw [Ends.bind_iff, ends_track]
    refine Ends.mono (Track.intact_read hs.tracked hb hd) fun old t ⟨ht, _, hold⟩ => ?_
    obtain ⟨y', hy', hinstrs⟩ := ht.graph.block hb
    have hfits : (s.retrack t).Fits := ⟨y', hy', fun n hn => hinstrs ▸ hin n y hn hb⟩
    have hty' := ht.graph.evolves.types _ _ hty
    exact Ends.never ((fits_assemble hfits hr hty' hwidth hold).mono fun _ _ _ => trivial)

/-- **A write that fails has changed nothing**, unless a read never comes to an end. -/
theorem Build.leaves_write_inside (hs : s.Intact vars) (hin : s.CursorInside) (x : VarId)
    (ranges : List BitRange) (b : BlockId) (o : Operand) :
    Leaves (write x ranges b o) s (Unmoved s) fun _ _ => True := by
  refine leaves_write (Unmoved.refl s) (fun d hd hty => ?_) fun d r site hd => ?_
  · exact (Leaves.of_ends (Bench.Intact.ends_keep hs (hs.vars ▸ hd) hty b)).mono
      (fun _ _ he => he) fun _ _ _ => trivial
  · obtain rfl := id_of_variableById? hd
    have hsplice := (Bench.Intact.provision vars).splice hs trivial d r b site
      (o := o)
    refine ((leaves_splice_inside hs hin hd r b o site).and (hsplice.ends.and
      (Bench.Intact.typeOf?_splice d r b o site s))).mono (fun _ _ he => he)
      fun whole t ⟨_, ht, hty⟩ => ?_
    exact (Leaves.of_ends (Bench.Intact.ends_keep ht.state (hs.vars ▸ hd) hty b)).mono
      (fun _ _ he => he) fun _ _ _ => trivial

/-! ## 4. All operations -/

/-- **An operation leaves a bench intact**, whichever way it ends, and if the cursor lies inside its
    block and it fails, it has changed nothing; unless a search never comes to an end. -/
theorem Operation.leaves (hs : s.Intact vars) (op : Operation) :
    Leaves op.run s (fun e t => e = .endless ∨ t.Intact vars ∧ (s.CursorInside → t = s))
      fun _ t => t.Intact vars := by
  have hstop : ∀ {e : Fault} {t}, Unmoved s e t →
      e = .endless ∨ t.Intact vars ∧ (s.CursorInside → t = s) := by
    rintro e t (he | rfl)
    · exact .inl he
    · exact .inr ⟨hs, fun _ => rfl⟩
  have hsame : ∀ {e : Fault} {t}, t = s → e = .endless ∨ t.Intact vars ∧ (s.CursorInside → t = s) :=
    fun ht => hstop (.inr ht)
  -- a computation on graph and tables
  have htrack : ∀ {α : Type} {x : Track α} {Q : α → Tracked → Prop},
      Leaves x s.tracked (Unmoved s.tracked) Q →
      (∀ a t, Q a t → t.reaching.vars = s.reaching.vars ∧ t.Intact) →
      Leaves (liftM x : Build α) s (Unmoved s) fun _ t => t.Intact vars := by
    refine fun h hQ => (Leaves.focus_iff _).2 (h.mono ?_ fun a t ht => ?_)
    · rintro e t (he | rfl)
      · exact .inl he
      · exact .inr rfl
    · obtain ⟨hvars, hi⟩ := hQ a t ht
      exact ⟨hi, hvars.trans hs.vars⟩
  cases op with
  | addBlock label kind =>
    exact (Leaves.discard_iff _).2 ((hs.leaves_addBlock label kind).mono (fun _ _ => hsame)
      fun _ _ h => h)
  | addEdge source cond target =>
    exact (hs.leaves_addEdge source cond target).mono (fun _ _ => hsame) fun _ _ h => h
  | emit op =>
    exact (Bench.Intact.leaves_single op.single hs).mono (fun _ _ => hsame) fun _ _ h => h
  | read x b =>
    exact (Leaves.discard_iff _).2 ((htrack (Track.leaves_read hs.tracked x b)
      fun _ _ ht => ⟨ht.1.vars, ht.2.1⟩).mono (fun _ _ => hstop) fun _ _ h => h)
  | sealBlock b =>
    exact (htrack (Track.leaves_sealBlock hs.tracked b) fun _ _ ht => ht).mono (fun _ _ => hstop)
      fun _ _ h => h
  | write x ranges b o =>
    have hwrite := hs.leaves_write x ranges b o
    refine (Leaves.discard_iff _).2 ?_
    by_cases hin : s.CursorInside
    · exact ((Build.leaves_write_inside hs hin x ranges b o).and hwrite.ends).mono
        (fun _ _ => hstop) fun _ _ h => h.2
    · exact hwrite.mono (fun _ _ he => he.imp_right fun ht => ⟨ht, fun h => absurd h hin⟩)
        fun _ _ h => h

/-- What is left by a computation that comes to an end. -/
theorem after_of_leaves {α σ : Type} {x : EStateM Fault σ α} {s : σ} {I : σ → Prop}
    (h : Leaves x s (fun e t => e = .endless ∨ I t) fun _ t => I t)
    (hend : fault? x s ≠ some .endless) : I (after x s) := by
  refine (after_iff x s I).2 ?_
  unfold Leaves fault? at *
  cases hx : x.run s with
  | ok a t =>
    rw [hx] at h
    exact h
  | error e t =>
    rw [hx] at h hend
    refine h.resolve_left ?_
    rintro rfl
    exact hend rfl

/-- **Every bench that can be built is intact.** -/
theorem Bench.Reached.intact (h : s.Reached) : ∃ vars, s.Intact vars := by
  induction h with
  | fresh name vars nameValues literalLimit => exact ⟨vars, .fresh name vars nameValues, rfl⟩
  | moved _ b position ih =>
    obtain ⟨vars, hs⟩ := ih
    exact ⟨vars, hs.tracked, hs.vars⟩
  | ran _ op hend ih =>
    obtain ⟨vars, hs⟩ := ih
    refine ⟨vars, after_of_leaves ((Operation.leaves hs op).mono (fun _ _ he => ?_)
      fun _ _ h => h) hend⟩
    exact he.imp_right And.left
  | lowered _ e hend ih =>
    obtain ⟨vars, hs⟩ := ih
    exact ⟨vars, after_of_leaves (((Bench.Intact.provision vars).lowerExpr e hs).mono
      (fun _ _ he => he) fun _ _ h => h.state) hend⟩

/-! ## 5. No trace of a failure -/

/-- **A failed operation leaves no trace.** On every bench that can be built, with the cursor inside
    its block, an operation that fails leaves graph, tables and cursor exactly as they were. -/
theorem Bench.Reached.unchanged (h : s.Reached) (hin : s.CursorInside) {op : Operation} {e : Fault}
    (hfails : fault? op.run s = some e) (hend : e ≠ .endless) : after op.run s = s := by
  obtain ⟨vars, hs⟩ := h.intact
  have hleft := (Operation.leaves hs op).of_error (fault?_eq_some.1 hfails)
  exact (hleft.resolve_left hend).2 hin

/-- A variable of 8 bits has been read in a block that is still open, so a phi waits there, and the
    cursor stands at the beginning of the block. -/
def Bench.waiting : Bench :=
  { after (Operation.read ⟨0⟩ ⟨1⟩).run (after (Operation.addBlock "loop" .live).run
      (.fresh "waiting" [⟨⟨0⟩, "x", .unsigned 8, []⟩] true 64)) with cursor := ⟨⟨1⟩, some 0⟩ }

theorem Bench.reached_waiting : Bench.waiting.Reached :=
  .moved (.ran (.ran (.fresh _ _ _ _) _ (by decide +kernel)) _ (by decide +kernel)) _ _

/-- Bit 8 of the variable cannot be written: nothing is read for it, and the phi goes on waiting. -/
theorem Bench.Reached.unchanged_waiting :
    waiting.Reached ∧ waiting.CursorInside ∧
      fault? (Operation.write ⟨0⟩ [⟨8, 4⟩] ⟨1⟩ (.lit (.ofNat 3 (.unsigned 5)))).run waiting =
        some (.outOfRange 8 4 8 "write of x") ∧
      after (Operation.write ⟨0⟩ [⟨8, 4⟩] ⟨1⟩ (.lit (.ofNat 3 (.unsigned 5)))).run waiting =
        waiting ∧
      waiting.graph.phi? ⟨0⟩ = some ⟨⟨1⟩, .unsigned 8, ⟨0⟩, []⟩ := by
  have hin : waiting.CursorInside := fun n y hn _ => by
    cases hn
    exact Nat.zero_le _
  have hfails : fault? (Operation.write ⟨0⟩ [⟨8, 4⟩] ⟨1⟩ (.lit (.ofNat 3 (.unsigned 5)))).run
      waiting = some (.outOfRange 8 4 8 "write of x") := by decide +kernel
  exact ⟨reached_waiting, hin, hfails, unchanged reached_waiting hin hfails (by decide),
    by decide +kernel⟩

end BitFlow
