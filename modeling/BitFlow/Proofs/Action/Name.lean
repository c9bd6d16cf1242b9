import BitFlow.Proofs.Action.Label
import BitFlow.Proofs.Reaching.Reading

/-!
# Names

A value may carry a name after a variable; no step of a lowering looks at one. `Lowering.unnamed` is
the state without names, whose tables give none and have given none.

Naming is the one operation that sees names, and on its own it may stop with a fault. Where it is
used there is a value to name and a variable to name it after, so that it only gives the name:
`Tracked.christened` is the state it leaves.

Main statements: one per operation on a graph, such as `Edit.nameless_replaceUses` -- it does not
see names; `Track.newPhi_eq` -- a new phi is christened, without a fault.
-/

namespace BitFlow

/-! ## 1. Without names -/

/-- The value without its name. -/
def Value.unnamed (x : Value) : Value := { x with name := none }

/-- The graph without names. -/
def Graph.unnamed (g : Graph) : Graph := { g with values := g.values.map Value.unnamed }

/-- The tables of a lowering without names. -/
def Reaching.unnamed (r : Reaching) : Reaching := { r with nameValues := false, versions := .empty }

/-- Graph and tables without names, -/
def Tracked.unnamed (s : Tracked) : Tracked := ⟨s.graph.unnamed, s.reaching.unnamed⟩

/-- a bench without names, -/
def Bench.unnamed (s : Bench) : Bench :=
  { s with graph := s.graph.unnamed, reaching := s.reaching.unnamed }

/-- and a lowering without names. -/
def Lowering.unnamed (l : Lowering) : Lowering := { l with bench := l.bench.unnamed }

/-! ## 2. Updates of a graph -/

namespace Graph

theorem value?_unnamed (g : Graph) (v : ValueId) :
    g.unnamed.value? v = (g.value? v).map Value.unnamed := by
  simp [unnamed, value?]

@[simp] theorem nextValue_unnamed (g : Graph) : g.unnamed.nextValue = g.nextValue := by
  simp [unnamed, nextValue]

theorem updateValue_unnamed (g : Graph) (v : ValueId) {f : Value → Value}
    (hf : ∀ x, f x.unnamed = (f x).unnamed) :
    g.unnamed.updateValue v f = (g.updateValue v f).unnamed := by
  unfold updateValue unnamed
  rw [modify_map hf]

/-- A change of a value that no name survives. -/
theorem unnamed_updateValue (g : Graph) (v : ValueId) {f : Value → Value}
    (hf : ∀ x, (f x).unnamed = x.unnamed) : (g.updateValue v f).unnamed = g.unnamed := by
  have hvalues : (g.values.modify v.index f).map Value.unnamed = g.values.map Value.unnamed := by
    rw [← modify_map (f := Value.unnamed) (k := id) fun x => (hf x).symm]
    apply Array.ext_getElem?
    simp [Array.getElem?_modify]
  exact congrArg (fun vs => { g with values := vs }) hvalues

theorem addUses_unnamed (g : Graph) (u : User) (ops : List Operand) :
    g.unnamed.addUses u ops = (g.addUses u ops).unnamed := by
  unfold addUses
  generalize ops.filterMap Operand.value? = vs
  exact (List.foldl_hom unnamed fun _ _ => rfl)

theorem removeUses_unnamed (g : Graph) (u : User) (ops : List Operand) :
    g.unnamed.removeUses u ops = (g.removeUses u ops).unnamed := by
  unfold removeUses
  generalize ops.filterMap Operand.value? = vs
  exact (List.foldl_hom unnamed fun _ _ => rfl)

theorem pushValue_unnamed (g : Graph) (ty : Ty) (origin : Origin) (b : BlockId) (kind : ValueKind) :
    g.unnamed.pushValue ty origin b kind = (g.pushValue ty origin b kind).unnamed := by
  unfold pushValue
  rw [nextValue_unnamed]
  unfold unnamed
  rw [Array.map_push]
  rfl

theorem withInstr_unnamed (g : Graph) (b : BlockId) (place : Nat) (ty : Ty) (origin : Origin)
    (i : Instr) :
    g.unnamed.withInstr b place ty origin i = (g.withInstr b place ty origin i).unnamed := by
  unfold withInstr
  rw [pushValue_unnamed, nextValue_unnamed, ← addUses_unnamed]
  rfl

theorem withPhi_unnamed (g : Graph) (b : BlockId) (x : VarId) (ty : Ty) :
    g.unnamed.withPhi b x ty = (g.withPhi b x ty).unnamed := by
  unfold withPhi
  rw [pushValue_unnamed, nextValue_unnamed]
  rfl

theorem resolve_unnamed (g : Graph) (o : Operand) : g.unnamed.resolve o = g.resolve o :=
  resolve_congr (show g.unnamed.forwards = g.forwards from rfl) o

theorem trivialReplacement_unnamed (g : Graph) (v : ValueId) :
    g.unnamed.trivialReplacement v = g.trivialReplacement v := by
  unfold trivialReplacement requireValue
  rw [value?_unnamed]
  cases g.value? v with
  | none => rfl
  | some x => rfl

end Graph

/-! ## 3. Operations on a graph -/

namespace Edit

open BitFlow.Graph

/-- A look at a value, whether it exists or not. -/
theorem ends_value_or {g : Graph} {R : Fault → Prop} {Q : Value → Graph → Prop} {v : ValueId}
    (hR : R (.violated (.unknownValue v))) (h : ∀ x, g.value? v = some x → Q x g) :
    Ends (value v) g R Q := by
  cases hx : g.value? v with
  | none =>
    unfold Ends
    rw [run_value, hx]
    exact hR
  | some x =>
    rw [ends_value hx]
    exact h x hx

/-- A look at a value by a computation that does not depend on its name. -/
theorem nameless_value {α : Type} {v : ValueId} {k : Value → Edit α}
    (blind : ∀ x, k x.unnamed = k x) (hk : ∀ x, Natural unnamed (k x)) :
    Natural unnamed (value v >>= k) := by
  intro g
  rw [EStateM.run_bind, EStateM.run_bind, run_value, run_value, value?_unnamed]
  cases g.value? v with
  | none => rfl
  | some x =>
    show (k x.unnamed).run g.unnamed = _
    rw [blind]
    exact hk x g

theorem nameless_block (b : BlockId) : Natural unnamed (block b) := by
  refine .look (fun _ => rfl) fun g => ?_
  split
  · exact .pure _
  · exact .throw _

theorem nameless_updateBlock (b : BlockId) (f : Block → Block) :
    Natural unnamed (updateBlock b f) :=
  (nameless_block b).bind fun _ => .modify fun _ => rfl

theorem nameless_updateValue (v : ValueId) {f : Value → Value}
    (hf : ∀ x, f x.unnamed = (f x).unnamed) : Natural unnamed (updateValue v f) :=
  nameless_value (fun _ => rfl) fun _ => .modify fun g => g.updateValue_unnamed v hf

theorem nameless_addUses (u : User) (ops : List Operand) :
    Natural unnamed (modify (·.addUses u ops) : Edit PUnit) :=
  .modify fun g => g.addUses_unnamed u ops

theorem nameless_addBlock (label : String) (kind : BlockKind) :
    Natural unnamed (addBlock label kind) := fun _ => rfl

theorem nameless_addEdge (source : BlockId) (cond : Option Operand) (target : BlockId) :
    Natural unnamed (addEdge source cond target) := by
  refine (nameless_block source).bind fun z => ?_
  dsimp only
  split
  · exact .pure _
  · refine (nameless_block target).bind fun y => ?_
    split
    · exact .throw _
    · exact .bind (.modify fun _ => rfl) fun _ => .bind (.modify fun _ => rfl) fun _ =>
        nameless_addUses _ _

theorem nameless_insertInstr (b : BlockId) (position : Option Nat) (ty : Ty) (origin : Origin)
    (i : Instr) : Natural unnamed (insertInstr b position ty origin i) := by
  refine (nameless_block b).bind fun y => ?_
  dsimp only
  split
  · exact .throw _
  · intro g
    show EStateM.Result.ok g.unnamed.nextValue (g.unnamed.withInstr b _ ty origin i) = _
    rw [withInstr_unnamed, nextValue_unnamed]
    rfl

theorem nameless_appendPhi (b : BlockId) (x : VarId) (ty : Ty) :
    Natural unnamed (appendPhi b x ty) := by
  refine (nameless_block b).bind fun y => fun g => ?_
  show EStateM.Result.ok g.unnamed.nextValue (g.unnamed.withPhi b x ty) = _
  rw [withPhi_unnamed, nextValue_unnamed]
  rfl

theorem nameless_pushIncoming (v : ValueId) (o : Operand) (pred : BlockId) :
    Natural unnamed (pushIncoming v o pred) := by
  refine nameless_value (fun _ => rfl) fun x => ?_
  split
  · exact .throw _
  · refine .bind (.modify fun g => g.updateValue_unnamed v ?_) fun _ => nameless_addUses _ _
    exact fun _ => rfl

theorem nameless_replaceUses (v : ValueId) (o : Operand) :
    Natural unnamed (replaceUses v o) := by
  refine .look (fun _ => rfl) fun g => .bind (.modify fun _ => rfl) fun _ => ?_
  refine .bind (.forM (fun u => ?_) _) fun _ => .pure _
  cases u with
  | value w =>
    refine .bind (nameless_updateValue w ?_) fun _ => nameless_addUses _ _
    exact fun _ => rfl
  | branch b => exact (nameless_updateBlock b _).bind fun _ => nameless_addUses _ _

theorem nameless_detach (v : ValueId) : Natural unnamed (detach v) := by
  refine nameless_value (fun _ => rfl) fun x => ?_
  split
  · exact .pure _
  · refine (nameless_updateBlock _ _).bind fun _ => ?_
    refine .bind (.modify fun g => g.removeUses_unnamed _ _) fun _ => ?_
    exact .modify fun g => g.updateValue_unnamed v fun _ => rfl

end Edit

/-! ## 4. Changes of the tables -/

/-- A change of the tables that keeps the declarations and has nothing to do with names. -/
structure Reaching.Plain (f : Reaching → Reaching) : Prop where
  vars : ∀ r, (f r).vars = r.vars
  naming : ∀ r n vs,
    f { r with nameValues := n, versions := vs } = { f r with nameValues := n, versions := vs }

namespace Reaching

theorem Plain.unnamed {f : Reaching → Reaching} (hf : Plain f) (r : Reaching) :
    f r.unnamed = (f r).unnamed := hf.naming r false .empty

theorem Plain.versions {f : Reaching → Reaching} (hf : Plain f) (r : Reaching) :
    (f r).versions = r.versions := by
  have h : f r = { f r with nameValues := r.nameValues, versions := r.versions } := hf.naming r _ _
  rw [h]

theorem plain_record (x : VarId) (b : BlockId) (o : Operand) : Plain (·.record x b o) :=
  ⟨fun _ => rfl, fun _ _ _ => rfl⟩

theorem plain_reroute (v : ValueId) (o : Operand) : Plain fun r => (r.reroute v o).countRemoved := by
  constructor
  · intro r
    obtain ⟨defs, holders, h⟩ := r.reroute_eq v o
    rw [h]
    rfl
  · intro r n vs
    let naming : Reaching → Reaching := fun r => { r with nameValues := n, versions := vs }
    show ((r.holders.image v).foldl (fun r p => r.record p.2 p.1 o)
      (naming { r with holders := r.holders.drop v })).countRemoved = _
    rw [List.foldl_hom naming fun r p => (plain_record p.2 p.1 o).naming r n vs]
    rfl

end Reaching

/-! ## 5. Naming -/

/-- The state in which `o` is named after the variable `x`, where there is a value without a name, a
    variable of that name, and names are given. -/
def Tracked.christened (x : VarId) (o : Operand) (s : Tracked) : Tracked :=
  match o, variableById? s.reaching.vars x with
  | .value v, some decl =>
      if s.reaching.nameValues = true ∧ (s.graph.value? v).map Value.name = some none then
        let version := (s.reaching.versions.get? x).getD 0
        let name := decl.name ++ "_" ++ toString version
        ⟨s.graph.updateValue v fun y => { y with name := some (y.name.getD name) },
          { s.reaching with versions := s.reaching.versions.insert x (version + 1) }⟩
      else s
  | _, _ => s

namespace Tracked

/-- What naming can do: nothing, or one value gets a name and one variable a new version. -/
theorem christened_cases (x : VarId) (o : Operand) (s : Tracked) :
    s.christened x o = s ∨ ∃ v name versions, s.christened x o =
      ⟨s.graph.updateValue v fun y => { y with name := some (y.name.getD name) },
        { s.reaching with versions := versions }⟩ := by
  unfold christened
  split
  · split
    · exact .inr ⟨_, _, _, rfl⟩
    · exact .inl rfl
  · exact .inl rfl

theorem vars_christened (x : VarId) (o : Operand) (s : Tracked) :
    (s.christened x o).reaching.vars = s.reaching.vars := by
  obtain h | ⟨v, name, versions, h⟩ := s.christened_cases x o <;> rw [h]

theorem unnamed_christened (x : VarId) (o : Operand) (s : Tracked) :
    (s.christened x o).unnamed = s.unnamed := by
  obtain h | ⟨v, name, versions, h⟩ := s.christened_cases x o
  · rw [h]
  · have hg := s.graph.unnamed_updateValue v
      (f := fun y => { y with name := some (y.name.getD name) }) fun _ => rfl
    rw [h]
    exact congrArg (Tracked.mk · s.reaching.unnamed) hg

theorem christened_unnamed (x : VarId) (o : Operand) (s : Tracked) :
    s.unnamed.christened x o = s.unnamed := by
  unfold christened
  split
  · exact if_neg fun h => Bool.noConfusion h.1
  · rfl

theorem christened_relabel (ρ : String → String) (x : VarId) (o : Operand) (s : Tracked) :
    (s.relabel ρ).christened x o = (s.christened x o).relabel ρ := by
  unfold christened
  rw [show (s.relabel ρ).reaching = s.reaching from rfl,
    show (s.relabel ρ).graph.value? = s.graph.value? from rfl]
  split
  · split <;> rfl
  · rfl

end Tracked

/-- An operand that has a type exists. -/
theorem Edit.ends_operandType_knows (o : Operand) (g : Graph) :
    Ends (operandType o) g (fun _ => True) fun _ g' => g' = g ∧ g.Knows o := by
  cases o with
  | lit c => exact ⟨rfl, fun _ hw => nomatch hw⟩
  | undef ty => exact ⟨rfl, fun _ hw => nomatch hw⟩
  | value v =>
    refine (Ends.bind_iff _ _).2 (ends_value_or trivial fun x hx => ⟨rfl, fun w hw => ?_⟩)
    cases hw
    exact Graph.index_lt_of_value? hx

namespace Track

variable {s : Tracked}

/-- **Naming a value that exists after a variable that is declared** gives it the name. -/
theorem run_nameAfter {x : VarId} {d : Variable} {o : Operand}
    (hd : variableById? s.reaching.vars x = some d) (ho : s.graph.Knows o) :
    (nameAfter x o).run s = .ok () (s.christened x o) := by
  have hends : Ends (nameAfter x o) s (fun _ => False) fun _ t => t = s.christened x o := by
    unfold nameAfter Tracked.christened
    rw [Ends.bind_iff, Ends.get_iff, hd]
    cases o with
    | lit c => split <;> rfl
    | undef ty => split <;> rfl
    | value v =>
      obtain ⟨z, hz⟩ := Graph.exists_value? (ho v rfl)
      dsimp only
      rw [hz]
      split
      · rename_i hn
        rw [Ends.bind_iff, ends_lift, Edit.ends_value hz]
        cases hname : z.name with
        | some n => simp [hname]
        | none =>
          have hdue : s.reaching.nameValues = true ∧ (some z).map Value.name = some none :=
            ⟨hn, congrArg some hname⟩
          rw [if_pos hdue, if_pos (Option.isNone_none), Ends.bind_iff, Ends.get_iff, Ends.bind_iff]
          refine ends_declaration (fun h => by rw [hd] at h; cases h) fun d' hd' => ?_
          cases hd.symm.trans hd'
          rw [Ends.bind_iff, ends_onTables, ends_lift]
          unfold Edit.setName
          rw [Edit.ends_updateValue hz]
      · rename_i hn
        rw [if_neg fun h => hn h.1]
        rfl
  obtain ⟨_, t, hrun, rfl⟩ := hends.exists_ok
  exact hrun

/-- **A new phi is christened**: its variable is declared, and it exists. -/
theorem newPhi_eq (b : BlockId) (x : VarId) : newPhi b x = (do
    let decl ← declaration x
    let v ← (liftM (Edit.appendPhi b x decl.ty) : Track ValueId)
    onTables Reaching.countCreated
    modify (·.christened x (.value v))
    pure v) := by
  funext s
  refine Ends.run_bind_congr (ends_declaration (fun _ => trivial) fun d hd => ?_)
  refine Ends.run_bind_congr ((ends_lift _).2 (Ends.skip fun y g => ?_))
  have hknow : (g.withPhi b x d.ty).Knows (.value g.nextValue) := by
    intro w hw
    cases hw
    rw [Graph.size_withPhi]
    exact Nat.lt_succ_self _
  show (nameAfter x (.value g.nextValue) >>= fun _ => pure g.nextValue).run
    ⟨g.withPhi b x d.ty, s.reaching.countCreated⟩ = _
  rw [EStateM.run_bind,
    run_nameAfter (s := ⟨g.withPhi b x d.ty, s.reaching.countCreated⟩) hd hknow]
  rfl

end Track

end BitFlow
