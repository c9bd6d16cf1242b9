import BitFlow.Proofs.Action.Name

/-!
# Properties of what is done at the cursor

Whatever a lowering does between two changes of the control flow -- reading and writing variables,
sealing blocks, lowering expressions -- it does by a few operations on the graph, its tables and the
cursor, and by looks at the state that neither a label nor a name can influence. A property of
actions that these parts have and that sequences inherit is a property of everything made of them.
What is done at the cursor needs few of the parts.

Main statement: `Emissive.lowerExpr` -- the property holds of the lowering of an expression, if it
holds of reads.
-/

namespace BitFlow

/-! ## 1. Actions on a part of the state -/

section Focus

variable {ε σ τ υ α β : Type}

/-- A sequence of actions on a part is a sequence of actions on the whole. -/
theorem focus_bind {get : σ → τ} {set : τ → σ → σ} (hget : ∀ t s, get (set t s) = t)
    (hset : ∀ t t' s, set t (set t' s) = set t s) (x : EStateM ε τ α) (f : α → EStateM ε τ β) :
    focus get set (x >>= f) = focus get set x >>= fun a => focus get set (f a) := by
  funext s
  show focus get set (EStateM.bind x f) s = EStateM.bind (focus get set x) _ s
  unfold focus EStateM.bind
  dsimp only
  cases x (get s) with
  | ok a t =>
    dsimp only
    rw [hget]
    cases f a t with
    | ok b u => exact congrArg (EStateM.Result.ok b) (hset u t s).symm
    | error e u => exact congrArg (EStateM.Result.error e) (hset u t s).symm
  | error e t => rfl

end Focus

namespace Lower

/-- An action on graph and tables, as an action of the lowering. -/
def tracking {α : Type} (x : Track α) : Lower α := onBench (Build.onTracked x)

/-- An action on graph and cursor, as an action of the lowering. -/
def emitting {α : Type} (x : Emit α) : Lower α := onBench (Build.onPointed x)

/-- An action on the graph, as an action of the lowering. -/
def editing {α : Type} (x : Edit α) : Lower α := onBench (Build.onGraph x)

variable {α β : Type}

theorem onBench_bind (x : Build α) (f : α → Build β) :
    onBench (x >>= f) = onBench x >>= fun a => onBench (f a) := by
  apply focus_bind
  · exact fun _ _ => rfl
  · exact fun _ _ _ => rfl

theorem tracking_bind (x : Track α) (f : α → Track β) :
    tracking (x >>= f) = tracking x >>= fun a => tracking (f a) := by
  have hpart :
      Build.onTracked (x >>= f) = Build.onTracked x >>= fun a => Build.onTracked (f a) := by
    apply focus_bind
    · exact fun _ _ => rfl
    · exact fun _ _ _ => rfl
  unfold tracking
  rw [hpart, onBench_bind]

theorem emitting_bind (x : Emit α) (f : α → Emit β) :
    emitting (x >>= f) = emitting x >>= fun a => emitting (f a) := by
  have hpart :
      Build.onPointed (x >>= f) = Build.onPointed x >>= fun a => Build.onPointed (f a) := by
    apply focus_bind
    · exact fun _ _ => rfl
    · exact fun _ _ _ => rfl
  unfold emitting
  rw [hpart, onBench_bind]

theorem editing_bind (x : Edit α) (f : α → Edit β) :
    editing (x >>= f) = editing x >>= fun a => editing (f a) := by
  have hpart : Build.onGraph (x >>= f) = Build.onGraph x >>= fun a => Build.onGraph (f a) := by
    apply focus_bind
    · exact fun _ _ => rfl
    · exact fun _ _ _ => rfl
  unfold editing
  rw [hpart, onBench_bind]

theorem tracking_onGraph (x : Edit α) : tracking (Track.onGraph x) = editing x := by
  funext l
  unfold tracking editing onBench Build.onTracked Build.onGraph Track.onGraph focus
  dsimp only
  cases x l.bench.graph <;> rfl

theorem liftM_edit (x : Edit α) : (liftM x : Lower α) = editing x := tracking_onGraph x

theorem emitting_onGraph (x : Edit α) : emitting (Emit.onGraph x) = editing x := by
  funext l
  unfold emitting editing onBench Build.onPointed Build.onGraph Emit.onGraph focus
  dsimp only
  cases x l.bench.graph <;> rfl

/-- A look at a block, and what follows it. -/
theorem run_block_bind (b : BlockId) (f : Block → Lower α) (l : Lowering) :
    (editing (Edit.block b) >>= f).run l =
      match l.bench.graph.block? b with
      | some y => (f y).run l
      | none => .error (.unknownBlock b) l := by
  have hblock := Edit.run_block b l.bench.graph
  rw [EStateM.run_bind]
  cases hy : l.bench.graph.block? b with
  | none =>
    rw [hy] at hblock
    rw [show (editing (Edit.block b)).run l = .error (.unknownBlock b) l from
      focus_error (focus_error hblock)]
  | some y =>
    rw [hy] at hblock
    rw [show (editing (Edit.block b)).run l = .ok y l from focus_ok (focus_ok hblock)]

/-- A look at a block is a look at the state. -/
theorem block_bind_eq (b : BlockId) (f : Block → Lower α) :
    (editing (Edit.block b) >>= f) = get >>= fun l =>
      match l.bench.graph.block? b with
      | some y => f y
      | none => throw (Fault.unknownBlock b) := by
  funext l
  have hlook : ∀ k : Lowering → Lower α, (get >>= k) l = k l l := fun _ => rfl
  refine (run_block_bind b f l).trans ?_
  rw [hlook]
  cases l.bench.graph.block? b <;> rfl

/-- A look at a value, and what follows it. -/
theorem run_value_bind (v : ValueId) (f : Value → Lower α) (l : Lowering) :
    (editing (Edit.value v) >>= f).run l =
      (match l.bench.graph.value? v with
      | some x => f x
      | none => throw (Fault.violated (.unknownValue v))).run l := by
  have hvalue := Edit.run_value v l.bench.graph
  rw [EStateM.run_bind]
  cases hx : l.bench.graph.value? v with
  | none =>
    rw [hx] at hvalue
    rw [show (editing (Edit.value v)).run l = .error (.violated (.unknownValue v)) l from
      focus_error (focus_error hvalue)]
    rfl
  | some x =>
    rw [hx] at hvalue
    rw [show (editing (Edit.value v)).run l = .ok x l from focus_ok (focus_ok hvalue)]

/-! ## 2. The parts -/

/-- **A property of actions that sequences inherit and that the parts have** of which everything
    done at the cursor is made. A look at the state is such a part if what follows it does not
    depend on labels or names. -/
structure Emissive (P : (α : Type) → Lower α → Prop) : Prop where
  pure : ∀ {α : Type} (a : α), P α (pure a)
  throw : ∀ {α : Type} (e : Fault), P α (throw e)
  bind : ∀ {α β : Type} {x : Lower α} {f : α → Lower β}, P α x → (∀ a, P β (f a)) → P β (x >>= f)
  look : ∀ {α : Type} {f : Lowering → Lower α}, (∀ ρ l, f (Lowering.relabel ρ l) = f l) →
    (∀ l, f l.unnamed = f l) → (∀ l, P α (f l)) → P α (get >>= f)
  block : ∀ {α : Type} {b : BlockId} {f : Block → Lower α}, (∀ ρ y, f (Block.relabel ρ y) = f y) →
    (∀ y, P α (f y)) → P α (editing (Edit.block b) >>= f)
  insertInstr : ∀ b position ty origin i,
    P ValueId (editing (Edit.insertInstr b position ty origin i))
  setCursor : ∀ f : Cursor → Cursor,
    P PUnit (modify fun l => { l with bench := { l.bench with cursor := f l.bench.cursor } })

namespace Emissive

variable {P : (α : Type) → Lower α → Prop} (h : Emissive P)

include h

theorem discard {x : Lower α} (hx : P α x) : P PUnit (discard x) :=
  h.bind hx fun _ => h.pure _

/-! ## 3. Actions on the graph -/

theorem edit_look {f : Graph → Edit α} (blind : ∀ ρ g, f (Graph.relabel ρ g) = f g)
    (nameless : ∀ g, f g.unnamed = f g) (hf : ∀ g, P α (editing (f g))) :
    P α (editing (get >>= f)) := by
  rw [editing_bind]
  show P α (get >>= fun l => editing (f l.bench.graph))
  refine h.look (fun ρ l => ?_) (fun l => ?_) fun l => hf _
  · rw [show (l.relabel ρ).bench.graph = l.bench.graph.relabel ρ from rfl, blind]
  · rw [show l.unnamed.bench.graph = l.bench.graph.unnamed from rfl, nameless]

/-- A look at a value, if what follows does not depend on its name. -/
theorem value {v : ValueId} {f : Value → Lower α} (nameless : ∀ x, f x.unnamed = f x)
    (hf : ∀ x, P α (f x)) : P α (editing (Edit.value v) >>= f) := by
  have hlook : (editing (Edit.value v) >>= f) = get >>= fun l =>
      match l.bench.graph.value? v with
      | some x => f x
      | none => MonadExcept.throw (.violated (.unknownValue v)) := by
    funext l
    exact run_value_bind v f l
  rw [hlook]
  refine h.look (fun _ _ => rfl) (fun l => ?_) fun l => ?_
  · rw [show l.unnamed.bench.graph = l.bench.graph.unnamed from rfl, Graph.value?_unnamed]
    cases l.bench.graph.value? v with
    | none => rfl
    | some x => exact nameless x
  · split
    · exact hf _
    · exact h.throw _

theorem resolve (o : Operand) : P Operand (editing (Edit.resolve o)) := by
  refine h.edit_look (fun ρ g => ?_) (fun g => ?_) fun g => h.pure _
  · rw [Graph.resolve_relabel]
  · rw [Graph.resolve_unnamed]

theorem operandType (o : Operand) : P Ty (editing (Edit.operandType o)) := by
  cases o with
  | value v =>
    show P Ty (editing (Edit.value v >>= fun x => Pure.pure x.ty))
    rw [editing_bind]
    exact h.value (fun _ => rfl) fun _ => h.pure _
  | lit c => exact h.pure _
  | undef ty => exact h.pure _

/-! ## 4. Looks at graph and tables -/

theorem track_bind {x : Track α} {f : α → Track β} (hx : P α (tracking x))
    (hf : ∀ a, P β (tracking (f a))) : P β (tracking (x >>= f)) := by
  rw [tracking_bind]
  exact h.bind hx hf

omit h in
theorem track_edit {x : Edit α} (hx : P α (editing x)) : P α (tracking (liftM x : Track α)) := by
  rw [show tracking (liftM x) = editing x from tracking_onGraph x]
  exact hx

theorem track_look {f : Tracked → Track α} (blind : ∀ ρ s, f (s.relabel ρ) = f s)
    (nameless : ∀ s, f s.unnamed = f s) (hf : ∀ s, P α (tracking (f s))) :
    P α (tracking (get >>= f)) := by
  rw [tracking_bind]
  show P α (get >>= fun l => tracking (f ⟨l.bench.graph, l.bench.reaching⟩))
  refine h.look (fun ρ l => ?_) (fun l => ?_) fun l => hf _
  · rw [← blind ρ ⟨l.bench.graph, l.bench.reaching⟩]
    rfl
  · rw [← nameless ⟨l.bench.graph, l.bench.reaching⟩]
    rfl

theorem track_block {b : BlockId} {f : Block → Track α} (blind : ∀ ρ y, f (Block.relabel ρ y) = f y)
    (hf : ∀ y, P α (tracking (f y))) : P α (tracking (liftM (Edit.block b) >>= f)) := by
  rw [tracking_bind, show tracking (liftM (Edit.block b)) = editing (Edit.block b) from
    tracking_onGraph _]
  refine h.block (fun ρ y => ?_) hf
  rw [blind]

theorem track_value {v : ValueId} {f : Value → Track α} (nameless : ∀ x, f x.unnamed = f x)
    (hf : ∀ x, P α (tracking (f x))) : P α (tracking (liftM (Edit.value v) >>= f)) := by
  rw [tracking_bind, show tracking (liftM (Edit.value v)) = editing (Edit.value v) from
    tracking_onGraph _]
  refine h.value (fun x => ?_) hf
  rw [nameless]

theorem declaration (x : VarId) : P Variable (tracking (Track.declaration x)) := by
  refine h.track_look (fun _ _ => rfl) (fun _ => rfl) fun s => ?_
  split
  · exact h.pure _
  · exact h.throw _

theorem trivialReplacement (v : ValueId) :
    P (Option Operand) (tracking (Track.ask (·.trivialReplacement v))) := by
  refine h.track_look (fun ρ s => ?_) (fun s => ?_) fun s => ?_
  · simp only [Tracked.relabel, Graph.trivialReplacement_relabel]
  · simp only [Tracked.unnamed, Graph.trivialReplacement_unnamed]
  · split
    · exact h.pure _
    · exact h.throw _

theorem track_forM {f : α → Track PUnit} (hf : ∀ a, P PUnit (tracking (f a))) (as : List α) :
    P PUnit (tracking (as.forM f)) := by
  induction as with
  | nil => exact h.pure _
  | cons a as ih => exact h.track_bind (hf a) fun _ => ih

/-! ## 5. Actions at the cursor -/

theorem emit_bind {x : Emit α} {f : α → Emit β} (hx : P α (emitting x))
    (hf : ∀ a, P β (emitting (f a))) : P β (emitting (x >>= f)) := by
  rw [emitting_bind]
  exact h.bind hx hf

omit h in
theorem emit_edit {x : Edit α} (hx : P α (editing x)) : P α (emitting (liftM x : Emit α)) := by
  rw [show emitting (liftM x) = editing x from emitting_onGraph x]
  exact hx

theorem emit_operandType (o : Operand) : P Ty (emitting (liftM (Edit.operandType o) : Emit Ty)) :=
  emit_edit (h.operandType o)

theorem instr (ty : Ty) (op : Opcode) (os : List Operand) (portUse : Option PortUse)
    (origin : Origin) : P ValueId (emitting (Emit.instr ty op os portUse origin)) := by
  have hrest : ∀ c : Cursor, P ValueId (emitting (do
      let v ← Edit.insertInstr c.block c.position ty origin ⟨op, os, portUse⟩
      modify fun s => { s with cursor := s.cursor.advance }
      Pure.pure v)) := fun c =>
    h.emit_bind (emit_edit (h.insertInstr ..)) fun v =>
      h.emit_bind (h.setCursor Cursor.advance) fun _ => h.pure _
  show P ValueId (get >>= fun l => emitting (do
    let v ← Edit.insertInstr l.bench.cursor.block l.bench.cursor.position ty origin
      ⟨op, os, portUse⟩
    modify fun s => { s with cursor := s.cursor.advance }
    Pure.pure v))
  exact h.look (fun _ _ => rfl) (fun _ => rfl) fun l => hrest l.bench.cursor

theorem apply (ty : Ty) (op : Opcode) (os : List Operand) :
    P Operand (emitting (Emit.apply ty op os)) := by
  unfold Emit.apply
  split
  · exact h.pure _
  · exact h.emit_bind (h.instr ..) fun _ => h.pure _

theorem unary (op : Opcode) (a : Operand) (site : String) :
    P Operand (emitting (Emit.unary op a site)) := by
  unfold Emit.unary
  split
  · exact h.emit_bind (h.emit_operandType a) fun _ => h.apply ..
  · exact h.throw _

theorem binary (op : Opcode) (a b : Operand) (site : String) :
    P Operand (emitting (Emit.binary op a b site)) := by
  refine h.emit_bind (h.emit_operandType a) fun _ => h.emit_bind (h.emit_operandType b) fun _ => ?_
  split
  · split
    · exact h.apply ..
    · exact h.throw _
  · exact h.throw _

theorem compare (op : Opcode) (a b : Operand) (site : String) :
    P Operand (emitting (Emit.compare op a b site)) := by
  unfold Emit.compare
  split
  · refine h.emit_bind (h.emit_operandType a) fun _ => ?_
    refine h.emit_bind (h.emit_operandType b) fun _ => ?_
    split
    · exact h.apply ..
    · exact h.throw _
  · exact h.throw _

theorem concat (os : List Operand) (site : String) :
    P Operand (emitting (Emit.concat os site)) := by
  have htypes : ∀ os : List Operand, P (List Ty)
      (emitting (os.mapM fun o => (liftM (Edit.operandType o) : Emit Ty))) := by
    intro os
    induction os with
    | nil => exact h.pure _
    | cons o os ih =>
      rw [List.mapM_cons]
      exact h.emit_bind (h.emit_operandType o) fun _ => h.emit_bind ih fun _ => h.pure _
  refine h.emit_bind (htypes os) fun tys => ?_
  split
  · exact h.throw _
  · split
    · exact h.apply ..
    · exact h.pure _
  · exact h.apply ..

theorem slice (a : Operand) (msb lsb : Nat) (site : String) :
    P Operand (emitting (Emit.slice a msb lsb site)) := by
  refine h.emit_bind (h.emit_operandType a) fun ty => ?_
  split
  · dsimp only
    split
    · exact h.pure _
    · exact h.apply ..
  · exact h.throw _

theorem index (a k : Operand) (site : String) : P Operand (emitting (Emit.index a k site)) := by
  unfold Emit.index
  split
  · exact h.slice ..
  · exact h.apply ..

theorem select (c a b : Operand) (site : String) :
    P Operand (emitting (Emit.select c a b site)) := by
  refine h.emit_bind (h.emit_operandType c) fun ct => ?_
  dsimp only
  by_cases hc : (!ct.isBit) = true
  · rw [if_pos hc]
    exact h.throw _
  rw [if_neg hc]
  refine h.emit_bind (h.emit_operandType a) fun ta => ?_
  refine h.emit_bind (h.emit_operandType b) fun tb => ?_
  by_cases ht : ta ≠ tb
  · rw [if_pos ht]
    exact h.throw _
  rw [if_neg ht]
  split
  · exact h.pure _
  · exact h.emit_bind (h.instr ..) fun _ => h.pure _

theorem cast (a : Operand) (ty : Ty) (site : String) :
    P Operand (emitting (Emit.cast a ty site)) := by
  unfold Emit.cast
  split
  · exact h.throw _
  refine h.emit_bind (h.emit_operandType a) fun ta => ?_
  split
  · exact h.pure _
  · exact h.apply ..

theorem coerce (a b : Operand) (site : String) :
    P (Operand × Operand) (emitting (Emit.coerce a b site)) := by
  refine h.emit_bind (h.emit_operandType a) fun ta => ?_
  refine h.emit_bind (h.emit_operandType b) fun tb => ?_
  split
  · exact h.pure _
  · split
    · exact h.pure _
    · exact h.pure _
    · split
      · exact h.emit_bind (h.cast ..) fun _ => h.pure _
      · exact h.throw _

theorem coerceTo (o : Operand) (ty : Ty) (site : String) :
    P Operand (emitting (Emit.coerceTo o ty site)) := by
  refine h.emit_bind (h.emit_operandType o) fun found => ?_
  split
  · exact h.pure _
  · split
    · exact h.pure _
    · split
      · exact h.cast ..
      · exact h.throw _

theorem condition (o : Operand) (site : String) :
    P Operand (emitting (Emit.condition o site)) := by
  refine h.emit_bind (h.emit_operandType o) fun ty => ?_
  split
  · exact h.pure _
  · exact h.compare ..

/-! ## 6. Expressions, where reads are given -/

theorem build_bind {x : Build α} {f : α → Build β} (hx : P α (onBench x))
    (hf : ∀ a, P β (onBench (f a))) : P β (onBench (x >>= f)) := by
  rw [onBench_bind]
  exact h.bind hx hf

theorem build_look {f : Bench → Build α} (blind : ∀ ρ s, f (s.relabel ρ) = f s)
    (nameless : ∀ s, f s.unnamed = f s) (hf : ∀ s, P α (onBench (f s))) :
    P α (onBench (get >>= f)) := by
  rw [onBench_bind]
  show P α (get >>= fun l => onBench (f l.bench))
  refine h.look (fun ρ l => ?_) (fun l => ?_) fun l => hf _
  · rw [show (l.relabel ρ).bench = l.bench.relabel ρ from rfl, blind]
  · rw [show l.unnamed.bench = l.bench.unnamed from rfl, nameless]

omit h in
theorem build_edit {x : Edit α} (hx : P α (editing x)) : P α (onBench (liftM x : Build α)) :=
  track_edit hx

theorem bound (e : Expr) (site : String) : P Nat (onBench (Build.bound e site)) := by
  unfold Build.bound
  split
  · exact h.pure _
  · exact h.throw _

theorem refuseArrayBase (base : Expr) (site : String) :
    P Unit (onBench (Build.refuseArrayBase base site)) := by
  unfold Build.refuseArrayBase
  split
  · refine h.build_bind (h.declaration _) fun d => ?_
    split
    · exact h.throw _
    · exact h.pure _
  · exact h.pure _

theorem literal (c : Literal) (site : String) : P Operand (onBench (Build.literal c site)) := by
  refine h.build_look (fun _ _ => rfl) (fun _ => rfl) fun s => ?_
  dsimp only
  split
  · exact h.pure _
  · exact h.throw _

theorem align (op : Binary) (a b : Operand) (site : String) :
    P (Operand × Operand) (onBench (Build.align op a b site)) := by
  unfold Build.align
  split
  · exact h.pure _
  · exact h.coerce a b site

theorem knownCondition (e : Expr) : P (Option Bool) (onBench (Build.knownCondition e)) :=
  h.build_look (fun _ _ => rfl) (fun _ => rfl) fun _ => h.pure _

/-- A part of the old content, if there is one. -/
theorem sliceIf {c : Prop} [Decidable c] {old : Operand} {msb lsb : Nat} {site : String}
    {f : List Operand → Build α} (hf : ∀ os, P α (onBench (f os))) :
    P α (onBench (if c then do
        let o ← (liftM (Emit.slice old msb lsb site) : Build Operand)
        let os ← Pure.pure [o]
        f os
      else do
        let os ← Pure.pure []
        f os)) := by
  split
  · exact h.build_bind (h.slice ..) fun o => hf [o]
  · exact hf []

theorem enter (b : BlockId) : P Unit (Lower.enter b) := h.setCursor fun _ => ⟨b, none⟩

theorem selectedRanges (ss : List Selector) (width : Nat) (site : String) :
    P (List BitRange) (Lower.selectedRanges ss width site) := by
  have hwithin : ∀ r : BitRange, P BitRange (if r.Within width then Pure.pure r
      else MonadExcept.throw (.outOfRange r.msb r.lsb width site)) := by
    intro r
    split
    · exact h.pure _
    · exact h.throw _
  have hone : ∀ s, P BitRange (Lower.selectedRange s width site) := by
    intro s
    unfold Lower.selectedRange
    cases s with
    | bit pos =>
      dsimp only
      split
      · exact h.bind (h.pure _) hwithin
      · exact h.bind (h.throw _) hwithin
    | range msb lsb =>
      exact h.bind (h.bound msb site) fun hi => h.bind (h.bound lsb site) fun lo =>
        h.bind (h.pure _) hwithin
  unfold Lower.selectedRanges
  split
  · exact h.pure _
  · exact h.bind (hone _) fun _ => h.pure _
  · exact h.throw _

theorem portFor (p : Program) (q : PortId) (access : Access) (site : String) :
    P Port (Lower.portFor p q access site) := by
  unfold Lower.portFor
  split
  · exact h.throw _
  · split
    · exact h.pure _
    · exact h.pure _
    · exact h.throw _

theorem variableRead (hread : ∀ x b, P Operand (tracking (Track.read x b)))
    (x : VarId) (site : String) : P Operand (onBench (Build.variableRead x site)) := by
  refine h.build_bind (h.declaration x) fun d => ?_
  dsimp only
  split
  · exact h.throw _
  · exact h.build_look (fun _ _ => rfl) (fun _ => rfl) fun s => hread x _

mutual

/-- **Lowering an expression.** -/
theorem lowerExpr (hread : ∀ x b, P Operand (tracking (Track.read x b)))
    (e : Expr) : P Operand (onBench (Build.lowerExpr e)) := by
  match e with
  | .lit c =>
    rw [Build.lowerExpr_lit]
    exact h.literal c _
  | .var x =>
    rw [Build.lowerExpr_var]
    exact h.variableRead hread x _
  | .unary op arg =>
    rw [Build.lowerExpr]
    exact h.build_bind (lowerExpr hread arg) fun a => h.unary ..
  | .binary op lhs rhs =>
    rw [Build.lowerExpr]
    exact h.build_bind (lowerExpr hread lhs) fun a => h.build_bind (lowerExpr hread rhs) fun b =>
      h.build_bind (h.align op a b _) fun r => h.binary ..
  | .compare op lhs rhs =>
    rw [Build.lowerExpr]
    exact h.build_bind (lowerExpr hread lhs) fun a => h.build_bind (lowerExpr hread rhs) fun b =>
      h.build_bind (h.coerce a b _) fun r => h.compare ..
  | .concat parts =>
    rw [Build.lowerExpr]
    exact h.build_bind (lowerExprs hread parts) fun os => h.concat ..
  | .bit base pos =>
    rw [Build.lowerExpr]
    exact h.build_bind (h.refuseArrayBase base _) fun _ =>
      h.build_bind (lowerExpr hread base) fun a =>
        h.build_bind (lowerExpr hread pos) fun k => h.index ..
  | .range base msb lsb =>
    rw [Build.lowerExpr]
    exact h.build_bind (h.refuseArrayBase base _) fun _ =>
      h.build_bind (lowerExpr hread base) fun a =>
        h.build_bind (h.bound msb _) fun hi => h.build_bind (h.bound lsb _) fun lo => h.slice ..
  | .ternary cond yes no =>
    rw [Build.lowerExpr]
    exact h.build_bind (lowerExpr hread cond) fun c => h.build_bind (h.condition c _) fun c =>
      h.build_bind (lowerExpr hread yes) fun a => h.build_bind (lowerExpr hread no) fun b =>
        h.build_bind (h.coerce a b _) fun r => h.select ..
  | .cast arg ty =>
    rw [Build.lowerExpr]
    exact h.build_bind (lowerExpr hread arg) fun a => h.cast ..

theorem lowerExprs (hread : ∀ x b, P Operand (tracking (Track.read x b)))
    (es : List Expr) : P (List Operand) (onBench (Build.lowerExprs es)) := by
  match es with
  | [] =>
    rw [Build.lowerExprs]
    exact h.pure _
  | e :: es =>
    rw [Build.lowerExprs]
    exact h.build_bind (lowerExpr hread e) fun o =>
      h.build_bind (lowerExprs hread es) fun os => h.pure _

end

/-- **Lowering a condition.** -/
theorem lowerCondition (hread : ∀ x b, P Operand (tracking (Track.read x b)))
    (e : Expr) : P Operand (onBench (Build.lowerCondition e)) :=
  h.build_bind (h.lowerExpr hread e) fun o => h.condition o _

end Emissive

end Lower

end BitFlow
