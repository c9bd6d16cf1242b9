import BitFlow.Proofs.Constant.Straight
import BitFlow.Proofs.Intact.Bench
import BitFlow.Proofs.Move.Build

/-!
# Two lowerings side by side

An expression is lowered twice, in two states. The operands that the two lowerings give agree: they
are of one type, and where both have a value it is the same. One rule for each operator says that it
keeps the agreement; it does not matter whether it was folded in one lowering and became an
instruction in the other.

Main statements: `Twin.read` -- a variable is read in both states; `Twin.applied` -- an operator is
applied in both; `Twin.coerced` -- two operands meet at one type, and the same one is converted
in both.
-/

namespace BitFlow

/-! ## 1. States of one lowering -/

/-- **A consistent bench**: graph and tables fit together and are intact, no phi is being filled,
    every instruction gives literals of its type, and nothing refers to a removed value. Operands
    need not be of the types that the lowering of expressions gives them. -/
structure Bench.Consistent (s : Bench) : Prop where
  idle : Idle s.tracked
  intact : s.tracked.Intact
  resulting : s.graph.Resulting
  anchored : s.graph.Anchored

/-- **The bench was carried on from `s₀`** by reading variables and emitting operators. -/
structure Led (s₀ s : Bench) : Prop where
  consistent : s.Consistent
  traced : Traced s₀.tracked s.tracked
  grown : s₀.graph.Grown s.graph
  vars : s.reaching.vars = s₀.reaching.vars
  block : s.cursor.block = s₀.cursor.block

/-- The bench with the graph and the cursor that emitting has left. -/
def Bench.moved (s : Bench) (q : Pointed) : Bench := { s with graph := q.graph, cursor := q.cursor }

section Led

variable {s₀ s : Bench}

theorem Led.refl (h : s₀.Consistent) : Led s₀ s₀ :=
  ⟨h, .refl h.idle.sane, .refl _, rfl, rfl⟩

/-- Where instructions are left alone, they go on giving literals of their types. -/
theorem Graph.Resulting.quiet {g g' : Graph} (h : g.Resulting) (hq : g.Quiet g')
    (hg : g.Grown g') : g'.Resulting := by
  intro v i hi
  obtain ⟨x', hx', -, -, hk⟩ := Graph.instr?_eq_some.1 hi
  cases hx : g.value? v with
  | none =>
    -- what is new is a phi
    have hphi := hq.new hx hx'
    unfold Value.isPhi at hphi
    rw [hk] at hphi
    cases hphi
  | some x =>
    rw [hg.instr (Graph.index_lt_of_value? hx)] at hi
    have hgives := h v i hi
    exact ⟨hgives.op, fun hop hos => (hgives.arms hop hos).imp (hg.types _ _) (hg.types _ _)⟩

/-- **A variable is read.** -/
theorem Led.read (h : Led s₀ s) (x : VarId) (site : String) :
    Ends (Build.variableRead x site) s (fun _ => True) fun o t => Led s₀ t ∧
      s.graph.Grown t.graph ∧ t.tracked.reached x s₀.cursor.block = some o := by
  have hs := h.consistent.idle
  unfold Build.variableRead
  rw [Ends.bind_iff, Build.ends_track]
  refine Track.ends_declaration (fun _ => trivial) fun d _ => ?_
  split
  · trivial
  · rw [Ends.bind_iff, Ends.get_iff, Build.ends_track]
    refine Ends.of_run fun o t run => ?_
    have hd := Track.didRead_of_run hs.sane run
    have hk := hd.kept hs.sane
    have hidle : Idle t := ⟨hd.sane hs.sane, hd.filling.trans hs.filling⟩
    obtain ⟨hquiet, hintact, -⟩ := (Track.leaves_read h.consistent.intact x _).of_ok run
    obtain ⟨made, hsteps⟩ := hd.steps
    have hgrown := (Track.holds_of_run hs.sane.steady run).grown
    refine ⟨⟨⟨hidle, hintact, h.consistent.resulting.quiet hquiet.graph hgrown, ?_⟩, ?_,
      h.grown.trans hgrown, hk.vars.trans h.vars, h.block⟩, hgrown, ?_⟩
    · exact (hk.settles h.consistent.anchored).anchored hidle.sane.steady hk.size
        h.consistent.anchored
    · exact hsteps.traced hs.sane h.grown.size h.traced
    · have hans := hd.answer
      rw [show (s.retrack s.tracked).cursor.block = s₀.cursor.block from h.block] at hans
      exact hans

theorem Graph.Anchored.withInstr {g : Graph} (h : g.Anchored) {b : BlockId} {place : Nat} {ty : Ty}
    {origin : Origin} {i : Instr} (hi : ∀ o ∈ i.operands, g.Anchors o) :
    (g.withInstr b place ty origin i).Anchored := by
  have hatt : ∀ {o}, g.Anchors o → (g.withInstr b place ty origin i).Anchors o :=
    fun ho w hw => (g.attached_withInstr b place ty origin i w).2 (.inr (ho w hw))
  refine ⟨fun {v j} hj o ho => ?_, fun {c br o} hbr hc => ?_⟩
  · rw [Graph.instr?_withInstr] at hj
    split at hj
    · cases hj
      exact hatt (hi o ho)
    · exact hatt (h.instr hj o ho)
  · rw [Graph.branches_withInstr] at hbr
    exact hatt (h.cond hbr hc)

/-- The operator gives literals of the type at which it is applied. -/
theorem Opcode.Admits.gives {g : Graph} {b : BlockId} {op : Opcode} {os : List Operand}
    {tys : List Ty} {ty : Ty} {use : Option PortUse} (h : op.Admits tys ty)
    (types : os.map g.typeOf? = tys.map some) : g.Gives ⟨b, ty, ⟨op, os, use⟩⟩ where
  op := fun hop => by
    show op.Yields ty
    cases op with
    | compare r =>
      match tys, h with
      | [_, _], h => exact h.2
    | index =>
      match tys, h with
      | [_, _], h => exact h
    | select => exact absurd rfl hop
    | _ => trivial
  arms := fun {k a b} hop hos => by
    change op = .select at hop
    change os = [k, a, b] at hos
    subst hop hos
    match tys, h, types with
    | [_, _, _], ⟨_, rfl, rfl⟩, types =>
      injection types with _ types
      injection types with ha types
      injection types with hb _
      exact ⟨ha, hb⟩

theorem Graph.Resulting.withInstr {g : Graph} (h : g.Resulting) {b : BlockId} {place : Nat} {ty : Ty}
    {origin : Origin} {i : Instr} (hi : g.Gives ⟨b, ty, i⟩) :
    (g.withInstr b place ty origin i).Resulting := by
  have hkeep : ∀ {j}, g.Gives j → (g.withInstr b place ty origin i).Gives j := fun hj =>
    ⟨hj.op, fun hop hos => (hj.arms hop hos).imp (g.keepsTypes_withInstr _ _ _ _ _ _ _)
      (g.keepsTypes_withInstr _ _ _ _ _ _ _)⟩
  intro v j hj
  rw [Graph.instr?_withInstr] at hj
  split at hj
  · cases hj
    exact hkeep hi
  · exact hkeep (h v j hj)

/-- **An instruction is put in.** -/
theorem Led.put (h : Led s₀ s) {ty : Ty} {op : Opcode} {os : List Operand} {v : ValueId}
    {q : Pointed} (hput : Put ⟨s.graph, s.cursor⟩ ty .expression ⟨op, os, none⟩ v q)
    (ha : ∀ o ∈ os, s.graph.Anchors o) {tys : List Ty}
    (types : os.map s.graph.typeOf? = tys.map some) (admits : op.Admits tys ty) :
    Led s₀ (s.moved q) ∧ s.graph.Grown q.graph ∧
      q.graph.instr? v = some ⟨s.cursor.block, ty, ⟨op, os, none⟩⟩ := by
  have hs := h.consistent
  have hintact : (s.moved q).tracked.Intact :=
    (Bench.Intact.put ⟨hs.intact, rfl⟩ hput).tracked
  obtain ⟨hname, ⟨y, hy, place, hgraph⟩, hcursor⟩ := hput
  have hgrown : s.graph.Grown q.graph := by
    rw [hgraph]
    exact s.graph.grown_withInstr _ _ _ _ _
  refine ⟨⟨⟨⟨?_, hs.idle.filling⟩, hintact, ?_, ?_⟩, ?_, h.grown.trans hgrown, h.vars, ?_⟩, hgrown,
    ?_⟩
  · show Sane none { s.tracked with graph := q.graph }
    rw [hgraph]
    exact hs.idle.sane.withInstr hy _ _ _ fun o ho => (ha o ho).knows
  · show q.graph.Resulting
    rw [hgraph]
    exact hs.resulting.withInstr (admits.gives types)
  · show q.graph.Anchored
    rw [hgraph]
    exact hs.anchored.withInstr ha
  · show Traced s₀.tracked { s.tracked with graph := q.graph }
    rw [hgraph]
    exact h.traced.withInstr
  · show q.cursor.block = _
    rw [hcursor]
    exact h.block
  · rw [hgraph, hname, Graph.instr?_withInstr, if_pos rfl]

end Led

/-! ## 2. Operands that agree -/

/-- **The operands `a` of one lowering and `b` of the other agree**: they are of one type, and where
    both have a value it is the same. -/
structure Agree (inputs : ValueId → Option Literal) (g g' : Graph) (ty : Ty) (a b : Operand) :
    Prop where
  left : g.typeOf? a = some ty
  right : g'.typeOf? b = some ty
  anchors_left : g.Anchors a
  anchors_right : g'.Anchors b
  width : ty.width ≤ wordMax
  value : ∀ {c c'}, g.Denotes inputs a c → g'.Denotes inputs b c' → c = c'

/-- Both lowerings were carried on, from `s₀` and `t₀` through `s` and `t` to `s'` and `t'`. -/
structure Onward (s₀ t₀ s t s' t' : Bench) : Prop where
  left : Led s₀ s'
  right : Led t₀ t'
  grown_left : s.graph.Grown s'.graph
  grown_right : t.graph.Grown t'.graph

variable {inputs : ValueId → Option Literal} {s₀ t₀ s t s' t' : Bench}
  {a b : Operand} {ty : Ty}

theorem Onward.refl (hs : Led s₀ s) (ht : Led t₀ t) : Onward s₀ t₀ s t s t :=
  ⟨hs, ht, .refl _, .refl _⟩

theorem Onward.trans {s'' t'' : Bench} (h : Onward s₀ t₀ s t s' t')
    (h' : Onward s₀ t₀ s' t' s'' t'') : Onward s₀ t₀ s t s'' t'' :=
  ⟨h'.left, h'.right, h.grown_left.trans h'.grown_left, h.grown_right.trans h'.grown_right⟩

/-- Operands that agree still do when both graphs have grown. -/
theorem Agree.onward (h : Agree inputs s.graph t.graph ty a b) (hs : Led s₀ s) (ht : Led t₀ t)
    (ho : Onward s₀ t₀ s t s' t') : Agree inputs s'.graph t'.graph ty a b where
  left := ho.grown_left.types _ _ h.left
  right := ho.grown_right.types _ _ h.right
  anchors_left := ho.grown_left.anchors h.anchors_left
  anchors_right := ho.grown_right.anchors h.anchors_right
  width := h.width
  value := fun hc hc' => by
    rw [ho.grown_left.denotes hs.consistent.anchored h.anchors_left.knows] at hc
    rw [ho.grown_right.denotes ht.consistent.anchored h.anchors_right.knows] at hc'
    exact h.value hc hc'

/-- Literals agree if they are equal. -/
theorem agree_lit {g g' : Graph} (c : Literal) (hw : c.ty.width ≤ wordMax) :
    Agree inputs g g' c.ty (.lit c) (.lit c) :=
  ⟨rfl, rfl, g.anchors_lit c, g'.anchors_lit c, hw, fun h h' => h.eq_of_lit.trans h'.eq_of_lit.symm⟩

/-- Some operands of both lowerings agree, one by one. -/
inductive AgreeAll (inputs : ValueId → Option Literal) (g g' : Graph) :
    List Ty → List Operand → List Operand → Prop where
  | nil : AgreeAll inputs g g' [] [] []
  | cons {ty : Ty} {a b : Operand} {tys : List Ty} {as bs : List Operand}
      (head : Agree inputs g g' ty a b) (tail : AgreeAll inputs g g' tys as bs) :
      AgreeAll inputs g g' (ty :: tys) (a :: as) (b :: bs)

namespace AgreeAll

variable {g g' : Graph} {tys : List Ty} {as bs : List Operand}

theorem one (h : Agree inputs g g' ty a b) : AgreeAll inputs g g' [ty] [a] [b] := .cons h .nil

theorem two {ty' : Ty} {a' b' : Operand} (h : Agree inputs g g' ty a b)
    (h' : Agree inputs g g' ty' a' b') : AgreeAll inputs g g' [ty, ty'] [a, a'] [b, b'] :=
  .cons h (.one h')

theorem types (h : AgreeAll inputs g g' tys as bs) :
    as.map g.typeOf? = tys.map some ∧ bs.map g'.typeOf? = tys.map some := by
  induction h with
  | nil => exact ⟨rfl, rfl⟩
  | cons head _ ih =>
    rw [List.map_cons, List.map_cons, List.map_cons, head.left, head.right, ih.1, ih.2]
    exact ⟨rfl, rfl⟩

theorem anchors (h : AgreeAll inputs g g' tys as bs) :
    (∀ o ∈ as, g.Anchors o) ∧ ∀ o ∈ bs, g'.Anchors o := by
  induction h with
  | nil => exact ⟨fun o ho => (by cases ho), fun o ho => (by cases ho)⟩
  | cons head _ ih =>
    refine ⟨fun o ho => ?_, fun o ho => ?_⟩
    · rcases List.mem_cons.1 ho with rfl | ho
      · exact head.anchors_left
      · exact ih.1 o ho
    · rcases List.mem_cons.1 ho with rfl | ho
      · exact head.anchors_right
      · exact ih.2 o ho

/-- Where all of them have values, these are the same. -/
theorem values (h : AgreeAll inputs g g' tys as bs) {cs cs' : List Literal}
    (hc : List.Forall₂ (g.Denotes inputs) as cs) (hc' : List.Forall₂ (g'.Denotes inputs) bs cs') :
    cs = cs' := by
  induction h generalizing cs cs' with
  | nil =>
    cases hc
    cases hc'
    rfl
  | cons head _ ih =>
    cases hc with
    | cons h1 h2 =>
      cases hc' with
      | cons h1' h2' => rw [head.value h1 h1', ih h2 h2']

end AgreeAll

/-! ## 3. Operators -/

/-- **The operand `o` stands for `op` applied to `os`**: it has the type of the result, and its
    value is folded from values of the operands. -/
structure Computes (inputs : ValueId → Option Literal) (s₀ s : Bench) (op : Opcode)
    (os : List Operand) (ty : Ty) (o : Operand) (s' : Bench) : Prop where
  led : Led s₀ s'
  grown : s.graph.Grown s'.graph
  type : s'.graph.typeOf? o = some ty
  anchors : s'.graph.Anchors o
  value : ∀ {c}, s'.graph.Denotes inputs o c →
    ∃ cs, List.Forall₂ (s.graph.Denotes inputs) os cs ∧ fold op cs ty = some c

/-- **Both lowerings were carried on and gave operands that agree.** -/
structure Twin (inputs : ValueId → Option Literal) (s₀ t₀ s t : Bench)
    (a : Operand) (s' : Bench) (b : Operand) (t' : Bench) : Prop where
  onward : Onward s₀ t₀ s t s' t'
  agree : ∃ ty, Agree inputs s'.graph t'.graph ty a b

variable {op : Opcode} {os os' : List Operand} {o o' : Operand} {tys : List Ty} {q q' : Pointed}

/-- **The same operator on operands that agree** gives operands that agree. -/
theorem Computes.twin (hA : Computes inputs s₀ s op os ty o s')
    (hB : Computes inputs t₀ t op os' ty o' t') (h : AgreeAll inputs s.graph t.graph tys os os')
    (hw : ty.width ≤ wordMax) : Twin inputs s₀ t₀ s t o s' o' t' := by
  refine ⟨⟨hA.led, hB.led, hA.grown, hB.grown⟩, ty, hA.type, hB.type, hA.anchors, hB.anchors, hw,
    fun hc hc' => ?_⟩
  obtain ⟨cs, hcs, hf⟩ := hA.value hc
  obtain ⟨cs', hcs', hf'⟩ := hB.value hc'
  rw [h.values hcs hcs'] at hf
  exact Option.some.inj (hf.symm.trans hf')

/-- Nothing was emitted. -/
theorem Twin.refl (hs : Led s₀ s) (ht : Led t₀ t) (h : Agree inputs s.graph t.graph ty a b) :
    Twin inputs s₀ t₀ s t a s b t := ⟨.refl hs ht, ty, h⟩

theorem Led.applied (h : Led s₀ s) (happ : Applied ⟨s.graph, s.cursor⟩ ty op os o q)
    (ha : ∀ o ∈ os, s.graph.Anchors o) (types : os.map s.graph.typeOf? = tys.map some)
    (admits : op.Admits tys ty) (yields : op.Yields ty) :
    Computes inputs s₀ s op os ty o (s.moved q) := by
  cases happ with
  | @folded cs c literals value =>
    refine ⟨h, .refl _, congrArg some (ty_of_fold op yields value), Graph.anchors_lit _ c,
      fun hc => ⟨cs, ?_, value.trans (congrArg some hc.eq_of_lit.symm)⟩⟩
    rw [literals, List.forall₂_map_left_iff]
    exact List.forall₂_same.2 fun k _ => Graph.denotes_lit k
  | @put v q stuck put =>
    obtain ⟨hled, hgrown, hinstr⟩ := h.put put ha types admits
    refine ⟨hled, hgrown, Graph.typeOf?_of_instr hinstr,
      fun w hw => (Operand.value.inj hw) ▸ Graph.attached_of_instr? hinstr, fun {c} hc => ?_⟩
    obtain ⟨cs, hcs, hf⟩ := hc.fold hinstr rfl
    exact ⟨cs, ((List.forall₂_and_left _ _).2 ⟨ha, hcs⟩).imp fun o k ⟨hanch, hk⟩ =>
      (hgrown.denotes h.consistent.anchored hanch.knows).1 hk, hf⟩

/-- **An operator is applied in both lowerings.** -/
theorem Twin.applied (hs : Led s₀ s) (ht : Led t₀ t)
    (hA : Applied ⟨s.graph, s.cursor⟩ ty op os o q) (hB : Applied ⟨t.graph, t.cursor⟩ ty op os' o' q')
    (h : AgreeAll inputs s.graph t.graph tys os os') (admits : op.Admits tys ty)
    (yields : op.Yields ty) (hw : ty.width ≤ wordMax) :
    Twin inputs s₀ t₀ s t o (s.moved q) o' (t.moved q') :=
  (hs.applied hA h.anchors.1 h.types.1 admits yields).twin
    (ht.applied hB h.anchors.2 h.types.2 admits yields) h hw

theorem Twin.converted (hs : Led s₀ s) (ht : Led t₀ t) {ta : Ty}
    (h : Agree inputs s.graph t.graph ta a b) (hw : ty.width ≤ wordMax)
    (hA : Emit.Converted ⟨s.graph, s.cursor⟩ a ty o q)
    (hB : Emit.Converted ⟨t.graph, t.cursor⟩ b ty o' q') :
    Twin inputs s₀ t₀ s t o (s.moved q) o' (t.moved q') := by
  cases hA with
  | same type =>
    cases h.left.symm.trans type
    cases hB with
    | same _ => exact .refl hs ht h
    | applied type' ne _ => exact absurd (Option.some.inj (type'.symm.trans h.right)) ne
  | applied type ne hA =>
    cases h.left.symm.trans type
    cases hB with
    | same type' => exact absurd (Option.some.inj (h.right.symm.trans type')) ne
    | applied _ _ hB =>
      exact .applied hs ht hA hB (.one h) trivial trivial hw

theorem Twin.tested (hs : Led s₀ s) (ht : Led t₀ t) (h : Agree inputs s.graph t.graph ty a b)
    (hA : Emit.Tested ⟨s.graph, s.cursor⟩ a o q) (hB : Emit.Tested ⟨t.graph, t.cursor⟩ b o' q') :
    Twin inputs s₀ t₀ s t o (s.moved q) o' (t.moved q') := by
  cases hA with
  | same type =>
    cases h.left.symm.trans type
    cases hB with
    | same _ => exact .refl hs ht h
    | applied type' ne _ => exact absurd (Option.some.inj (type'.symm.trans h.right)) ne
  | applied type ne hA =>
    cases h.left.symm.trans type
    cases hB with
    | same type' => exact absurd (Option.some.inj (h.right.symm.trans type')) ne
    | applied type' _ hB =>
      cases h.right.symm.trans type'
      exact .applied hs ht hA hB (.two h (agree_lit (.zero ty) h.width)) ⟨rfl, rfl⟩ rfl
        (by decide)

theorem Twin.sliced (hs : Led s₀ s) (ht : Led t₀ t) (h : Agree inputs s.graph t.graph ty a b)
    {msb lsb : Nat} (hA : Emit.Sliced ⟨s.graph, s.cursor⟩ a msb lsb o q)
    (hB : Emit.Sliced ⟨t.graph, t.cursor⟩ b msb lsb o' q') :
    Twin inputs s₀ t₀ s t o (s.moved q) o' (t.moved q') := by
  cases hA with
  | all type le lt =>
    cases h.left.symm.trans type
    cases hB with
    | all _ _ _ => exact .refl hs ht h
    | applied type' _ _ part _ => exact absurd (Option.some.inj (h.right.symm.trans type')) part
  | applied type le lt part hA =>
    cases h.left.symm.trans type
    cases hB with
    | all type' _ _ => exact absurd (Option.some.inj (type'.symm.trans h.right)) part
    | applied _ _ _ _ hB =>
      have hw := h.width
      exact .applied hs ht hA hB (.one h) ⟨le, lt, rfl⟩ trivial
        (show msb - lsb + 1 ≤ wordMax by omega)

theorem Twin.joined (hs : Led s₀ s) (ht : Led t₀ t)
    (h : AgreeAll inputs s.graph t.graph tys os os')
    (hA : Emit.Joined ⟨s.graph, s.cursor⟩ os o q) (hB : Emit.Joined ⟨t.graph, t.cursor⟩ os' o' q') :
    Twin inputs s₀ t₀ s t o (s.moved q) o' (t.moved q') := by
  have htys : ∀ {tys'}, tys.map some = tys'.map some → tys = tys' :=
    fun e => (List.map_inj_right fun _ _ => Option.some.inj).1 e
  cases hA with
  | single sole type unsigned =>
    subst sole
    have hright := h.types.2
    cases h with
    | cons head tail =>
      cases tail
      cases head.left.symm.trans type
      cases hB with
      | single sole' _ _ =>
        cases sole'
        exact .refl hs ht head
      | applied _ types several _ =>
        cases htys (hright.symm.trans types)
        rw [several _ _ rfl rfl] at unsigned
        cases unsigned
  | applied nonempty types several hA =>
    cases htys (h.types.1.symm.trans types)
    cases hB with
    | single sole type unsigned =>
      subst sole
      cases h with
      | cons head tail =>
        cases tail
        cases head.right.symm.trans type
        rw [several _ _ rfl rfl] at unsigned
        cases unsigned
    | applied _ types' _ hB =>
      cases htys (h.types.2.symm.trans types')
      refine .applied hs ht hA hB h ⟨?_, congrArg Ty.unsigned (Emit.joinedWidth_eq tys)⟩ trivial
        ?_
      · rintro rfl
        exact nonempty (List.map_eq_nil_iff.1 types)
      · show Emit.joinedWidth tys ≤ wordMax
        rw [Emit.joinedWidth_eq]
        exact Nat.min_le_right _ _

/-! ## 4. Bits and choices -/

/-- The types of data at ports are those of the reads, in every later state. -/
def InputsTyped (inputs : ValueId → Option Literal) (g : Graph) : Prop :=
  ∀ {v c}, inputs v = some c → g.typeOf? (.value v) = some c.ty

theorem Led.type_of_denotes (h : Led s₀ s) (hin : InputsTyped inputs s₀.graph) {c : Literal}
    (hc : s.graph.Denotes inputs o c) (ho : s.graph.typeOf? o = some ty) : c.ty = ty := by
  have := h.consistent.resulting.of_denotes (fun hv => h.grown.types _ _ (hin hv)) hc
  exact Option.some.inj (this.symm.trans ho)

/-- **One bit**: whether it was emitted as a slice or not, its value is that of the bit. -/
theorem Led.indexed (h : Led s₀ s) (hin : InputsTyped inputs s₀.graph) {ta tk : Ty}
    (ha : s.graph.typeOf? a = some ta) (hk : s.graph.typeOf? b = some tk)
    (hanch : ∀ o ∈ [a, b], s.graph.Anchors o) (hw : ta.width ≤ wordMax)
    (hidx : Emit.Indexed ⟨s.graph, s.cursor⟩ a b o q) :
    Computes inputs s₀ s .index [a, b] .bit o (s.moved q) := by
  cases hidx with
  | applied _ happ =>
    have htypes : [a, b].map s.graph.typeOf? = [ta, tk].map some := by
      rw [List.map_cons, ha, List.map_cons, hk]
      rfl
    exact h.applied happ hanch htypes rfl rfl
  | @literal k _ _ position sliced =>
    subst position
    have hpos : 0 < wordMax := by decide
    have hbit : ∀ m, Ty.unsigned (m - m + 1) = .bit := fun m => by
      rw [Nat.sub_self]
      rfl
    cases sliced with
    | all type le lt =>
      -- bit 0 of a single bit
      have hzero : k.bits = 0 := by omega
      rw [hbit] at type
      refine ⟨h, .refl _, type, hanch a List.mem_cons_self, fun {c} hc => ?_⟩
      have hty : c.ty = .unsigned 1 := h.type_of_denotes hin hc type
      refine ⟨[c, k], .cons hc (.cons (Graph.denotes_lit k) .nil), ?_⟩
      have hwidth : k.bits < c.width := by
        show k.bits < c.ty.width
        rw [hzero, hty]
        exact Nat.one_pos
      rw [← fold_slice_one hwidth, hzero]
      exact fold_slice_all hty (Nat.le_refl 0) (hzero ▸ hwidth) (by rw [hty]; rfl)
    | @applied ty _ _ type le lt part happ =>
      cases ha.symm.trans type
      have hmin : min k.bits wordMax = k.bits := by omega
      rw [hmin, hbit] at happ
      have htypes : [a].map s.graph.typeOf? = [ta].map some := congrArg (fun x => [x]) ha
      have hcomp : Computes inputs s₀ s (.slice k.bits k.bits) [a] .bit o (s.moved q) :=
        h.applied happ (fun o ho => hanch o (List.mem_singleton.1 ho ▸ List.mem_cons_self)) htypes
          ⟨Nat.le_refl _, hmin ▸ lt, (hbit _).symm⟩ trivial
      refine ⟨hcomp.led, hcomp.grown, hcomp.type, hcomp.anchors, fun {c} hc => ?_⟩
      obtain ⟨cs, hcs, hf⟩ := hcomp.value hc
      cases hcs with
      | @cons _ ca _ _ hca hnil =>
        cases hnil
        refine ⟨[ca, k], .cons hca (.cons (Graph.denotes_lit k) .nil), ?_⟩
        rw [← fold_slice_one (show k.bits < ca.ty.width by
          rw [h.type_of_denotes hin hca ha]
          exact hmin ▸ lt)]
        exact hf

theorem Twin.indexed (hs : Led s₀ s) (ht : Led t₀ t) (hin : InputsTyped inputs s₀.graph)
    (hin' : InputsTyped inputs t₀.graph) {tk : Ty} {k k' : Operand}
    (h : Agree inputs s.graph t.graph ty a b) (hk : Agree inputs s.graph t.graph tk k k')
    (hA : Emit.Indexed ⟨s.graph, s.cursor⟩ a k o q) (hB : Emit.Indexed ⟨t.graph, t.cursor⟩ b k' o' q') :
    Twin inputs s₀ t₀ s t o (s.moved q) o' (t.moved q') := by
  have hall := AgreeAll.two h hk
  exact (hs.indexed hin h.left hk.left hall.anchors.1 h.width hA).twin
    (ht.indexed hin' h.right hk.right hall.anchors.2 h.width hB) hall (by decide)

/-- **A choice**: whether it was decided at once or not, its value is that of the chosen arm. -/
theorem Led.selected (h : Led s₀ s) {k : Operand} (hanch : ∀ o ∈ [k, a, b], s.graph.Anchors o)
    (ha : s.graph.typeOf? a = some ty) (hsel : Emit.Selected ⟨s.graph, s.cursor⟩ k a b o q) :
    Led s₀ (s.moved q) ∧ s.graph.Grown q.graph ∧ q.graph.typeOf? o = some ty ∧
      q.graph.Anchors o ∧ ∀ {c}, q.graph.Denotes inputs o c →
        ∃ c₀, s.graph.Denotes inputs k c₀ ∧
          s.graph.Denotes inputs (if c₀.isTrue then a else b) c := by
  cases hsel with
  | @decided c₀ ty' cond bit left right =>
    cases ha.symm.trans left
    subst cond
    refine ⟨h, .refl _, ?_, ?_, fun hc => ⟨c₀, Graph.denotes_lit c₀, hc⟩⟩
    · split
      · exact left
      · exact right
    · split
      · exact hanch a (by simp)
      · exact hanch b (by simp)
  | @put ty' v q cond bit left right put =>
    cases ha.symm.trans left
    have htypes : [k, a, b].map s.graph.typeOf? = [Ty.bit, ty, ty].map some := by
      rw [List.map_cons, bit, List.map_cons, left, List.map_cons, right]
      rfl
    obtain ⟨hled, hgrown, hinstr⟩ := h.put put hanch htypes ⟨rfl, rfl, rfl⟩
    refine ⟨hled, hgrown, Graph.typeOf?_of_instr hinstr,
      fun w hw => (Operand.value.inj hw) ▸ Graph.attached_of_instr? hinstr, fun {c} hc => ?_⟩
    obtain ⟨cs, hcs, hf⟩ := hc.fold hinstr rfl
    have hback : ∀ {x c}, x ∈ [k, a, b] → q.graph.Denotes inputs x c → s.graph.Denotes inputs x c :=
      fun hm hx => (hgrown.denotes h.consistent.anchored (hanch _ hm).knows).1 hx
    obtain ⟨c₀, ca, cb, rfl, rfl⟩ := exists_of_fold_select hf
    match hcs with
    | .cons h₀ (.cons h₁ (.cons h₂ .nil)) =>
      refine ⟨c₀, hback (by simp) h₀, ?_⟩
      split
      · exact hback (by simp) h₁
      · exact hback (by simp) h₂

theorem Twin.selected (hs : Led s₀ s) (ht : Led t₀ t) {tk : Ty} {k k' a' b' : Operand}
    (hk : Agree inputs s.graph t.graph tk k k') (ha : Agree inputs s.graph t.graph ty a a')
    (hb : Agree inputs s.graph t.graph ty b b')
    (hA : Emit.Selected ⟨s.graph, s.cursor⟩ k a b o q)
    (hB : Emit.Selected ⟨t.graph, t.cursor⟩ k' a' b' o' q') :
    Twin inputs s₀ t₀ s t o (s.moved q) o' (t.moved q') := by
  have hanch := (AgreeAll.cons hk (.two ha hb)).anchors
  obtain ⟨hl, hg, htype, hanchor, hval⟩ := hs.selected hanch.1 ha.left hA
  obtain ⟨hl', hg', htype', hanchor', hval'⟩ := ht.selected hanch.2 ha.right hB
  refine ⟨⟨hl, hl', hg, hg'⟩, ty, htype, htype', hanchor, hanchor', ha.width, fun hc hc' => ?_⟩
  obtain ⟨c₀, h₀, hc⟩ := hval hc
  obtain ⟨c₀', h₀', hc'⟩ := hval' hc'
  -- both lowerings choose the same arm
  cases hk.value h₀ h₀'
  split at hc
  · rename_i htrue
    rw [if_pos htrue] at hc'
    exact ha.value hc hc'
  · rename_i hfalse
    rw [if_neg hfalse] at hc'
    exact hb.value hc hc'

/-! ## 5. Operands that meet at one type -/

/-- **The second of two operands was brought to the type of the first.** -/
structure ToFirst (inputs : ValueId → Option Literal) (s₀ s : Bench) (ta : Ty)
    (b o : Operand) (s' : Bench) : Prop where
  led : Led s₀ s'
  grown : s.graph.Grown s'.graph
  type : s'.graph.typeOf? o = some ta
  anchors : s'.graph.Anchors o
  value : ∀ {c}, s'.graph.Denotes inputs o c → ∃ k, s.graph.Denotes inputs b k ∧ c = k.resize ta

/-- Two operands of one type are left as they are. -/
theorem Emit.Coerced.eq_of_type {pt : Pointed} {r : Operand × Operand} (h : Coerced pt a b r q)
    (ha : pt.graph.typeOf? a = some ty) (hb : pt.graph.typeOf? b = some ty) : r = (a, b) ∧ q = pt := by
  cases h with
  | same _ _ => exact ⟨rfl, rfl⟩
  | right left literal ne =>
    subst literal
    exact absurd (Option.some.inj (left.symm.trans (ha.trans hb.symm))) ne
  | left right literal _ ne =>
    subst literal
    exact absurd (Option.some.inj (ha.trans (hb.symm.trans right))) ne
  | cast left right ne _ _ _ _ =>
    exact absurd (Option.some.inj (left.symm.trans (ha.trans (hb.symm.trans right)))) ne

/-- What becomes of two operands of different types: the second one is brought to the type of the
    first, or the first one is a literal and is brought to the type of the second. -/
theorem Led.coerced (inputs : ValueId → Option Literal) (h : Led s₀ s) {ta tb : Ty}
    (ha : s.graph.typeOf? a = some ta)
    (hb : s.graph.typeOf? b = some tb) (hanch : s.graph.Anchors b) (hne : ta ≠ tb) (m : Meeting)
    {r : Operand × Operand} (hco : Emit.Coerced ⟨s.graph, s.cursor⟩ a b r q) :
    (s.graph.conversion m a b = [⟨m, .right⟩] ∧ r.1 = a ∧
        ToFirst inputs s₀ s ta b r.2 (s.moved q)) ∨
      (s.graph.conversion m a b = [⟨m, .left⟩] ∧
        ∃ k, a = .lit k ∧ r = (.lit (k.resize tb), b) ∧ q = ⟨s.graph, s.cursor⟩) := by
  cases hco with
  | same left right =>
    cases ha.symm.trans left
    exact absurd (Option.some.inj (right.symm.trans hb)) hne
  | @right ty c left literal ne =>
    cases ha.symm.trans left
    subst literal
    exact .inl ⟨Graph.conversion_right m left ne, rfl, h, .refl _, congrArg some (c.ty_resize ta),
      Graph.anchors_lit _ _, fun hc => ⟨c, Graph.denotes_lit c, hc.eq_of_lit⟩⟩
  | @left ty c right literal other ne =>
    cases hb.symm.trans right
    subst literal
    exact .inr ⟨Graph.conversion_left m right ne other, c, rfl, rfl, rfl⟩
  | @cast ta' tb' o q left right ne width lhs rhs happ =>
    cases ha.symm.trans left
    cases hb.symm.trans right
    have htypes : [b].map s.graph.typeOf? = [tb].map some := congrArg (fun x => [x]) hb
    have hcomp : Computes inputs s₀ s .cast [b] ta o (s.moved q) :=
      h.applied happ (fun o ho => List.mem_singleton.1 ho ▸ hanch) htypes trivial trivial
    refine .inl ⟨Graph.conversion_values m (fun e => ne ?_) lhs, rfl, hcomp.led, hcomp.grown,
      hcomp.type, hcomp.anchors, fun {c} hc => ?_⟩
    · rw [ha, hb] at e
      exact Option.some.inj e
    · obtain ⟨cs, hcs, hf⟩ := hcomp.value hc
      cases hcs with
      | @cons _ k _ _ hk hnil =>
        cases hnil
        refine ⟨k, hk, ?_⟩
        rw [fold_cast k (holdsLiterals_of_fold hf)] at hf
        exact (Option.some.inj hf).symm

/-- The sides that are converted where two operands meet. -/
def Graph.convertedSides (g : Graph) (m : Meeting) (a b : Operand) : List Side :=
  (g.conversion m a b).map Conversion.side

/-- **Two operands meet at one type in both lowerings**, and the same side is converted. -/
theorem Twin.coerced (hs : Led s₀ s) (ht : Led t₀ t) {ta tb : Ty} {a' b' : Operand}
    (h : Agree inputs s.graph t.graph ta a a') (h' : Agree inputs s.graph t.graph tb b b')
    {r r' : Operand × Operand} (hA : Emit.Coerced ⟨s.graph, s.cursor⟩ a b r q)
    (hB : Emit.Coerced ⟨t.graph, t.cursor⟩ a' b' r' q') {m m' : Meeting} {u w : List Side}
    (hsides : s.graph.convertedSides m a b ++ u = t.graph.convertedSides m' a' b' ++ w) :
    Onward s₀ t₀ s t (s.moved q) (t.moved q') ∧ u = w ∧
      ∃ ty, Agree inputs q.graph q'.graph ty r.1 r'.1 ∧ Agree inputs q.graph q'.graph ty r.2 r'.2 := by
  unfold Graph.convertedSides at hsides
  by_cases hne : ta = tb
  · subst hne
    rw [Graph.conversion_same m (h.left.trans h'.left.symm),
      Graph.conversion_same m' (h.right.trans h'.right.symm)] at hsides
    obtain ⟨rfl, rfl⟩ := hA.eq_of_type h.left h'.left
    obtain ⟨rfl, rfl⟩ := hB.eq_of_type h.right h'.right
    exact ⟨.refl hs ht, hsides, ta, h, h'⟩
  · have hcA := hs.coerced inputs h.left h'.left h'.anchors_left hne m hA
    have hcB := ht.coerced inputs h.right h'.right h'.anchors_right hne m' hB
    rcases hcA with ⟨hc, hfst, hto⟩ | ⟨hc, k, hlit, hr, hq⟩
    · rcases hcB with ⟨hc', hfst', hto'⟩ | ⟨hc', -⟩
      · rw [hc, hc'] at hsides
        have hon : Onward s₀ t₀ s t (s.moved q) (t.moved q') :=
          ⟨hto.led, hto'.led, hto.grown, hto'.grown⟩
        refine ⟨hon, (List.cons.inj hsides).2, ta, ?_, hto.type, hto'.type, hto.anchors,
          hto'.anchors, h.width, fun hc hc' => ?_⟩
        · rw [hfst, hfst']
          exact h.onward hs ht hon
        · obtain ⟨k, hk, rfl⟩ := hto.value hc
          obtain ⟨k', hk', rfl⟩ := hto'.value hc'
          rw [h'.value hk hk']
      · rw [hc, hc'] at hsides
        cases (List.cons.inj hsides).1
    · rcases hcB with ⟨hc', -⟩ | ⟨hc', k', hlit', hr', hq'⟩
      · rw [hc, hc'] at hsides
        cases (List.cons.inj hsides).1
      · rw [hc, hc'] at hsides
        subst hlit hlit' hr hr' hq hq'
        obtain rfl := h.value (Graph.denotes_lit k) (Graph.denotes_lit k')
        have hlits : Agree inputs s.graph t.graph (k.resize tb).ty (.lit (k.resize tb))
            (.lit (k.resize tb)) := agree_lit _ (by rw [Literal.ty_resize]; exact h'.width)
        rw [Literal.ty_resize] at hlits
        exact ⟨.refl hs ht, (List.cons.inj hsides).2, tb, hlits, h'⟩

end BitFlow
