import BitFlow.Proofs.Course.Read
import BitFlow.Proofs.Typing.Basic

/-!
# What all operands of a graph have in common

Operands stand in values, in branch conditions, in the forwards of removed values and in the tables.
Reading a variable and sealing a block move operands from one place to another and make none but the
undefined ones, of declared types. So whatever holds of all operands there keeps holding, also where
a fault cuts the work short, and no type of a value changes. Reads and seals are those of any depth,
so this holds before they are known to end.

Main statements: `Course.preserves_read`, `Course.preserves_sealBlock`.
-/

namespace BitFlow

/-! ## 1. Graphs and tables -/

/-- **All operands of the graph satisfy `G`**, with an undefined one of each value's type, and the
    graph keeps the types of `g₀`. -/
structure Graph.Bears (G : Operand → Prop) (g g₀ : Graph) : Prop where
  keeps : g₀.KeepsTypes g
  types : ∀ {v x}, g.value? v = some x → G (.undef x.ty)
  operands : ∀ {v x o}, g.value? v = some x → o ∈ x.operands → G o
  conds : ∀ {b y br o}, g.block? b = some y → br ∈ y.branches → br.cond = some o → G o
  forwards : ∀ {v o}, g.forwards.get? v = some o → G o

/-- **All operands of the tables satisfy `G`**, with an undefined one of each declared type. -/
structure Reaching.Bears (G : Operand → Prop) (r : Reaching) : Prop where
  defs : ∀ {x b o}, r.definition? x b = some o → G o
  vars : ∀ {x d}, variableById? r.vars x = some d → G (.undef d.ty)

/-- All operands of a graph and its tables. -/
structure Tracked.Bears (G : Operand → Prop) (g₀ : Graph) (s : Tracked) : Prop where
  graph : s.graph.Bears G g₀
  tables : s.reaching.Bears G

variable {G : Operand → Prop} {g₀ : Graph}

namespace Graph.Bears

variable {g g' : Graph}

/-- Only values, blocks and forwards count. -/
theorem congr (h : g.Bears G g₀) (hv : g'.values = g.values) (hb : g'.blocks = g.blocks)
    (hf : g'.forwards = g.forwards) : g'.Bears G g₀ := by
  have hvalue : ∀ v, g'.value? v = g.value? v := fun v => congrArg (·[v.index]?) hv
  have hblock : ∀ b, g'.block? b = g.block? b := fun b => congrArg (·[b.index]?) hb
  refine ⟨h.keeps.trans fun o ty ho => ?_, fun hx => h.types (hvalue _ ▸ hx),
    fun hx => h.operands (hvalue _ ▸ hx), fun hy => h.conds (hblock _ ▸ hy),
    fun ho => h.forwards (hf ▸ ho)⟩
  exact (typeOf?_congr fun v _ => by rw [hvalue]).trans ho

theorem addUses (h : g.Bears G g₀) (u : User) (ops : List Operand) :
    (g.addUses u ops).Bears G g₀ := by
  rw [addUses_eq]
  exact h.congr rfl rfl rfl

theorem removeUses (h : g.Bears G g₀) (u : User) (ops : List Operand) :
    (g.removeUses u ops).Bears G g₀ := by
  rw [removeUses_eq]
  exact h.congr rfl rfl rfl

theorem updateBlock (h : g.Bears G g₀) (b : BlockId) {f : Block → Block}
    (hf : ∀ y br o, g.block? b = some y → br ∈ (f y).branches → br.cond = some o → G o) :
    (g.updateBlock b f).Bears G g₀ := by
  refine ⟨h.keeps.trans fun o ty ho => ?_, h.types, h.operands, fun {c y br o} hy hbr ho => ?_,
    h.forwards⟩
  · exact (typeOf?_congr fun _ _ => rfl).trans ho
  · rw [block?_updateBlock] at hy
    split at hy
    · rename_i e
      obtain ⟨z, hz, rfl⟩ := Option.map_eq_some_iff.1 hy
      subst e
      exact hf z br o hz hbr ho
    · exact h.conds hy hbr ho

theorem updateValue (h : g.Bears G g₀) (v : ValueId) {f : Value → Value}
    (hty : ∀ x, (f x).ty = x.ty)
    (hf : ∀ x o, g.value? v = some x → o ∈ (f x).operands → G o) :
    (g.updateValue v f).Bears G g₀ := by
  refine ⟨h.keeps.trans fun o ty ho => ?_, fun {w x} hx => ?_, fun {w x o} hx ho => ?_, h.conds,
    h.forwards⟩
  · rw [← ho]
    refine typeOf?_congr fun w _ => ?_
    rw [value?_updateValue]
    split
    · rw [Option.map_map]
      congr 1
      funext x
      exact hty x
    · rfl
  · rw [value?_updateValue] at hx
    split at hx
    · obtain ⟨z, hz, rfl⟩ := Option.map_eq_some_iff.1 hx
      rw [hty]
      exact h.types hz
    · exact h.types hx
  · rw [value?_updateValue] at hx
    split at hx
    · rename_i e
      obtain ⟨z, hz, rfl⟩ := Option.map_eq_some_iff.1 hx
      subst e
      exact hf z o hz ho
    · exact h.operands hx ho

theorem pushValue (h : g.Bears G g₀) {ty : Ty} (origin : Origin) (b : BlockId) {kind : ValueKind}
    (hty : G (.undef ty))
    (hops : ∀ o ∈ (Value.mk g.nextValue ty none origin b kind).operands, G o) :
    (g.pushValue ty origin b kind).Bears G g₀ := by
  refine ⟨h.keeps.trans fun o t ho => ?_, fun {w x} hx => ?_, fun {w x o} hx ho => ?_, h.conds,
    h.forwards⟩
  · rw [← ho]
    refine typeOf?_congr fun w hw => ?_
    rw [value?_pushValue, if_neg]
    rintro rfl
    exact ne_nextValue_of_typeOf? ho hw
  · rw [value?_pushValue] at hx
    split at hx
    · cases hx
      exact hty
    · exact h.types hx
  · rw [value?_pushValue] at hx
    split at hx
    · cases hx
      exact hops o ho
    · exact h.operands hx ho

theorem pushBlock (h : g.Bears G g₀) (label : String) (kind : BlockKind) :
    (g.pushBlock label kind).Bears G g₀ := by
  refine ⟨h.keeps.trans fun o ty ho => ?_, h.types, h.operands, fun {c y br o} hy hbr ho => ?_,
    h.forwards⟩
  · exact (typeOf?_congr fun _ _ => rfl).trans ho
  · rw [block?_pushBlock] at hy
    split at hy
    · cases hy
      cases hbr
    · exact h.conds hy hbr ho

theorem setForward (h : g.Bears G g₀) (v : ValueId) {o : Operand} (ho : G o) :
    (g.setForward v o).Bears G g₀ := by
  refine ⟨h.keeps.trans fun o ty ho => ?_, h.types, h.operands, h.conds, fun {w a} ha => ?_⟩
  · exact (typeOf?_congr fun _ _ => rfl).trans ho
  · have hget : (g.forwards.insert v o).get? w = some a := ha
    rw [Table.get?_insert] at hget
    split at hget
    · cases hget
      exact ho
    · exact h.forwards hget

/-- What an operand stands for. -/
theorem follow (h : g.Bears G g₀) {n : Nat} {o a : Operand} (ho : G o)
    (ha : g.follow n o = some a) : G a := by
  induction n generalizing o with
  | zero => cases ha
  | succ n ih =>
    cases o with
    | lit c =>
      cases ha
      exact ho
    | undef ty =>
      cases ha
      exact ho
    | value v =>
      unfold Graph.follow at ha
      cases hget : g.forwards.get? v with
      | none =>
        simp only [hget] at ha
        cases ha
        exact ho
      | some next =>
        simp only [hget] at ha
        split at ha
        · cases ha
          exact ho
        · exact ih (h.forwards hget) ha

end Graph.Bears

/-! ## 2. Operations on a graph -/

namespace Edit

/-- A look at a block. -/
theorem yields_block {I : Graph → Prop} (b : BlockId) : Yields I (fun _ => True) (block b) := by
  refine .look fun g _ => ?_
  split
  · exact .pure trivial
  · exact .throw _

/-- A look at a value, whose operands satisfy `G`. -/
theorem yields_value (v : ValueId) : Yields (Graph.Bears G · g₀)
    (fun x => G (.undef x.ty) ∧ ∀ o ∈ x.operands, G o) (value v) := by
  refine .look fun g hg => ?_
  split
  · rename_i x hx
    exact .pure ⟨hg.types hx, fun o ho => hg.operands hx ho⟩
  · exact .throw _

theorem yields_operandType (o : Operand) :
    Yields (Graph.Bears G · g₀) (fun _ => True) (operandType o) := by
  cases o with
  | lit c => exact .pure trivial
  | undef ty => exact .pure trivial
  | value v => exact .bind (yields_value v) fun _ _ => .pure trivial

theorem yields_updateBlock (b : BlockId) {f : Block → Block}
    (hf : ∀ y br o, br ∈ (f y).branches → br.cond = some o →
      (∀ br ∈ y.branches, ∀ o, br.cond = some o → G o) → G o) :
    Yields (Graph.Bears G · g₀) (fun _ => True) (updateBlock b f) := by
  refine (yields_block b).bind fun _ _ => .modify fun g hg => ?_
  refine hg.updateBlock b fun y br o hy hbr ho => ?_
  exact hf y br o hbr ho fun br hbr o ho => hg.conds hy hbr ho

theorem yields_updateValue (v : ValueId) {f : Value → Value} (hty : ∀ x, (f x).ty = x.ty)
    (hf : ∀ x o, o ∈ (f x).operands → (∀ o ∈ x.operands, G o) → G o) :
    Yields (Graph.Bears G · g₀) (fun _ => True) (updateValue v f) := by
  refine .bind (yields_value v) fun _ _ => .modify fun g hg => ?_
  refine hg.updateValue v hty fun x o hx ho => ?_
  exact hf x o ho fun o ho => hg.operands hx ho

theorem yields_addUses (u : User) (ops : List Operand) :
    Yields (Graph.Bears G · g₀) (fun _ => True) (modify (·.addUses u ops) : Edit PUnit) :=
  .modify fun _ hg => hg.addUses u ops

theorem yields_addBlock (label : String) (kind : BlockKind) :
    Yields (Graph.Bears G · g₀) (fun _ => True) (addBlock label kind) :=
  .look fun _ hg => .bind (.set (hg.pushBlock label kind)) fun _ _ => .pure trivial

theorem yields_addEdge {q c : BlockId} {cond : Option Operand} (hc : ∀ o, cond = some o → G o) :
    Yields (Graph.Bears G · g₀) (fun _ => True) (addEdge q cond c) := by
  refine (yields_block q).bind fun z _ => ?_
  dsimp only
  split
  · exact .pure trivial
  refine (yields_block c).bind fun y _ => ?_
  split
  · exact .throw _
  refine .bind (.modify fun g hg => hg.updateBlock c fun y br o hy hbr ho => ?_) fun _ _ => ?_
  · refine hg.conds hy ?_ ho
    unfold Block.addPred at hbr
    split at hbr <;> exact hbr
  refine .bind (.modify fun g hg => hg.updateBlock q fun y br o hy hbr ho => ?_) fun _ _ => ?_
  · rcases List.mem_append.1 hbr with hbr | hbr
    · exact hg.conds hy hbr ho
    · rw [List.mem_singleton.1 hbr] at ho
      exact hc o ho
  · exact yields_addUses _ _

theorem yields_appendPhi (b : BlockId) (x : VarId) {ty : Ty} (hty : G (.undef ty)) :
    Yields (Graph.Bears G · g₀) (fun _ => True) (appendPhi b x ty) := by
  refine (yields_block b).bind fun _ _ => .look fun g hg => ?_
  refine .bind (.set (hg.pushValue _ b hty fun o ho => by cases ho)) fun _ _ => ?_
  exact .bind (.modify fun g hg => hg.updateBlock b fun y br o hy hbr ho => hg.conds hy hbr ho)
    fun _ _ => .pure trivial

theorem yields_pushIncoming (v : ValueId) {o : Operand} (ho : G o) (q : BlockId) :
    Yields (Graph.Bears G · g₀) (fun _ => True) (pushIncoming v o q) := by
  refine .bind (yields_value v) fun x hx => ?_
  split
  · exact .throw _
  · rename_i phi hkind
    have hold : ∀ a ∈ phi.incoming.map Prod.fst, G a := by
      intro a ha
      refine hx.2 a ?_
      unfold Value.operands
      rwa [hkind]
    refine .bind (.modify fun g hg => hg.updateValue v (fun _ => rfl) fun y a _ ha => ?_)
      fun _ _ => yields_addUses _ _
    have ha' : a ∈ (phi.incoming ++ [(o, q)]).map Prod.fst := ha
    rw [List.map_append] at ha'
    rcases List.mem_append.1 ha' with h | h
    · exact hold a h
    · rw [List.mem_singleton.1 h]
      exact ho

theorem of_replace {v : ValueId} {o a : Operand} (ho : G o) (ha : G a) :
    G (Operand.replace (.value v) o a) := by
  unfold Operand.replace
  split
  · exact ho
  · exact ha

theorem yields_replaceUses (v : ValueId) {o : Operand} (ho : G o) :
    Yields (Graph.Bears G · g₀) (fun _ => True) (replaceUses v o) := by
  refine .look fun g _ => .bind (.modify fun g hg => hg.congr rfl rfl rfl) fun _ _ => ?_
  refine .bind (.forM (fun u => ?_) _) fun _ _ => .pure trivial
  cases u with
  | value w =>
    refine .bind (yields_updateValue w (fun _ => rfl) fun x a ha hx => ?_)
      fun _ _ => yields_addUses _ _
    rw [Value.operands_replace] at ha
    obtain ⟨a', ha', rfl⟩ := List.mem_map.1 ha
    exact of_replace ho (hx a' ha')
  | branch b =>
    refine .bind (yields_updateBlock b fun y br a hbr ha hy => ?_) fun _ _ => yields_addUses _ _
    obtain ⟨br', hbr', rfl⟩ := List.mem_map.1 hbr
    obtain ⟨a', ha', rfl⟩ := Option.map_eq_some_iff.1 ha
    exact of_replace ho (hy br' hbr' a' ha')

theorem yields_detach (v : ValueId) : Yields (Graph.Bears G · g₀) (fun _ => True) (detach v) := by
  refine .bind (yields_value v) fun x _ => ?_
  split
  · exact .pure trivial
  · refine .bind (yields_updateBlock _ fun y br o hbr ho hy => ?_) fun _ _ => ?_
    · split at hbr <;> exact hy br hbr o ho
    · refine .bind (.modify fun g hg => hg.removeUses _ _) fun _ _ => ?_
      exact .modify fun g hg => hg.updateValue v (fun _ => rfl) fun y o hy ho => hg.operands hy ho

end Edit

/-! ## 3. Operations on graph and tables -/

namespace Reaching.Bears

variable {r : Reaching}

theorem record (h : r.Bears G) (x : VarId) (b : BlockId) {o : Operand} (ho : G o) :
    (r.record x b o).Bears G := by
  refine ⟨fun {y c a} ha => ?_, h.vars⟩
  rw [definition?_record] at ha
  split at ha
  · cases ha
    exact ho
  · exact h.defs ha

theorem reroute (h : r.Bears G) (v : ValueId) {o : Operand} (ho : G o) :
    (r.reroute v o).Bears G := by
  unfold Reaching.reroute
  exact List.foldlRecOn _ _ ⟨h.defs, h.vars⟩ fun _ hr q _ => hr.record q.2 q.1 ho

end Reaching.Bears

namespace Track

variable {α : Type} {A : α → Prop}

theorem yields_edit {x : Edit α} (hx : Yields (Graph.Bears G · g₀) A x) :
    Yields (Tracked.Bears G g₀) A (liftM x : Track α) := by
  apply Yields.focus (J := (Graph.Bears G · g₀))
  · exact fun s hs => hs.graph
  · exact fun s g hs hg => ⟨hg, hs.tables⟩
  · exact hx

theorem yields_onTables {f : Reaching → Reaching} (hf : ∀ r, r.Bears G → (f r).Bears G) :
    Yields (Tracked.Bears G g₀) (fun _ => True) (onTables f) :=
  .modify fun _ hs => ⟨hs.graph, hf _ hs.tables⟩

theorem yields_declaration (x : VarId) :
    Yields (Tracked.Bears G g₀) (fun d => G (.undef d.ty)) (declaration x) := by
  refine .look fun s hs => ?_
  split
  · rename_i d hd
    exact .pure (hs.tables.vars hd)
  · exact .throw _

theorem yields_nameAfter (x : VarId) (o : Operand) :
    Yields (Tracked.Bears G g₀) (fun _ => True) (nameAfter x o) := by
  refine .look fun _ _ => ?_
  split
  · split
    · refine .bind (yields_edit (Edit.yields_value _)) fun y _ => ?_
      split
      · refine .look fun _ _ => .bind (yields_declaration x) fun d _ => ?_
        refine .bind (yields_onTables fun r hr => ⟨hr.defs, hr.vars⟩) fun _ _ => yields_edit ?_
        exact Edit.yields_updateValue _ (fun _ => rfl) fun y o ho hy => hy o ho
      · exact .pure trivial
    · exact .pure trivial
  · exact .pure trivial

/-- What a superfluous phi stands for. -/
theorem of_trivialReplacement {g : Graph} (hg : g.Bears G g₀) {v : ValueId} {o : Operand}
    (h : g.trivialReplacement v = .ok (some o)) : G o := by
  obtain ⟨x, hx, -, hmem | rfl⟩ := exists_of_trivialReplacement h
  · exact hg.operands hx hmem
  · exact hg.types hx

theorem yields_retire (v : ValueId) {o : Operand} (ho : G o) :
    Yields (Tracked.Bears G g₀) (fun _ => True) (retire v o) := by
  refine .bind (yields_edit (Edit.yields_replaceUses v ho)) fun former _ => ?_
  refine .bind (yields_edit (Edit.yields_detach v)) fun _ _ => ?_
  refine .bind (yields_edit (x := modify (·.setForward v o))
    (.modify fun g hg => hg.setForward v ho)) fun _ _ => ?_
  refine .bind (yields_onTables fun r hr => ?_) fun _ _ => .pure trivial
  exact ⟨(hr.reroute v ho).defs, (hr.reroute v ho).vars⟩

theorem yields_newPhi (b : BlockId) (x : VarId) :
    Yields (Tracked.Bears G g₀) (fun _ => True) (newPhi b x) := by
  refine .bind (yields_declaration x) fun d hd => ?_
  refine .bind (yields_edit (Edit.yields_appendPhi b x hd)) fun v _ => ?_
  refine .bind (yields_onTables fun r hr => ⟨hr.defs, hr.vars⟩) fun _ _ => ?_
  exact .bind (yields_nameAfter x _) fun _ _ => .pure trivial

end Track

/-! ## 4. Reading and sealing -/

namespace Course

/-- What an operand stands for. -/
theorem preserves_resolve (n : Nat) {o : Operand} (ho : G o) :
    Preserves (Tracked.Bears G g₀) G (resolve n o) := by
  intro s hs
  unfold Allows outcome resolve
  cases hfollow : s.graph.follow n o with
  | none => trivial
  | some a => exact ⟨hs, hs.graph.follow ho hfollow⟩

/-- What is done to the graph. -/
theorem preserves_edit {α : Type} {A : α → Prop} {x : Edit α}
    (hx : Yields (Graph.Bears G · g₀) A x) :
    Preserves (Tracked.Bears G g₀) A (liftM (liftM x : Track α) : Course Tracked α) :=
  .act (Track.yields_edit hx)

variable (hv : ∀ v, G (.value v))

include hv

theorem preserves_removeTrivial (n : Nat) (v : ValueId) :
    Preserves (Tracked.Bears G g₀) G (removeTrivial n v) := by
  induction n generalizing v with
  | zero => exact .cut
  | succ n ih =>
    unfold removeTrivial
    refine .bind (preserves_edit (Edit.yields_value v)) fun x _ => ?_
    split
    · have hask : Yields (Tracked.Bears G g₀) (fun o? => ∀ o, o? = some o → G o)
          (Track.ask (·.trivialReplacement v)) := by
        refine .look fun s hs => ?_
        split
        · rename_i a ha
          exact .pure fun o e => Track.of_trivialReplacement hs.graph (e ▸ ha)
        · exact .throw _
      refine .bind (.act hask) fun o? ho? => ?_
      split
      · exact .pure (hv v)
      · rename_i o
        refine .bind (.act (Track.yields_retire v (ho? o rfl))) fun former _ => ?_
        refine .bind (.forM (fun u => ?_) former) fun _ _ => preserves_resolve n (ho? o rfl)
        cases u with
        | branch b => exact .pure trivial
        | value u =>
          refine .look fun s _ => ?_
          split
          · exact .pure trivial
          · refine .bind (preserves_edit (Edit.yields_value u)) fun y _ => ?_
            split
            · exact .bind (ih u) fun _ _ => .pure trivial
            · exact .pure trivial
    · exact preserves_resolve n (hv v)

/-- **Reading a variable** makes no operands of its own, and neither do the parts of a read. -/
theorem preserves_read_parts (n : Nat) (x : VarId) :
    (∀ b, Preserves (Tracked.Bears G g₀) G (read n x b)) ∧
      (∀ b, Preserves (Tracked.Bears G g₀) G (readThrough n x b)) ∧
      ∀ v, Preserves (Tracked.Bears G g₀) G (fill n x v) := by
  induction n with
  | zero =>
    unfold read readThrough fill
    exact ⟨fun _ => .cut, fun _ => .cut, fun _ => .cut⟩
  | succ n ih =>
    obtain ⟨hread, hthrough, hfill⟩ := ih
    refine ⟨fun b => ?_, fun b => ?_, fun v => ?_⟩
    · unfold read
      refine .look fun s hs => ?_
      split
      · rename_i o ho
        exact preserves_resolve n (hs.tables.defs ho)
      · refine .bind (hthrough b) fun o ho => .bind (preserves_resolve n ho) fun o ho => ?_
        exact .bind (.act (Track.yields_onTables fun r hr => hr.record x b ho)) fun _ _ => .pure ho
    · unfold readThrough
      refine .bind (.act (Track.yields_declaration x)) fun d hd => ?_
      refine .bind (preserves_edit (Edit.yields_block b)) fun y _ => ?_
      split
      · split
        · exact .pure hd
        · exact hread _
        · refine .bind (.act (Track.yields_newPhi b x)) fun v _ => ?_
          refine .bind (.act (Track.yields_onTables fun r hr => hr.record x b (hv v))) fun _ _ => ?_
          exact hfill v
      · refine .bind (.act (Track.yields_newPhi b x)) fun v _ => ?_
        exact .bind (.act (Track.yields_onTables fun r hr => ⟨hr.defs, hr.vars⟩)) fun _ _ =>
          .pure (hv v)
    · unfold fill
      refine .bind (preserves_edit (Edit.yields_value v)) fun y _ => ?_
      split
      · exact .throw _
      · refine .bind (preserves_edit (Edit.yields_block _)) fun z _ => ?_
        refine .bind (.act (Track.yields_onTables fun r hr => ⟨hr.defs, hr.vars⟩)) fun _ _ => ?_
        refine .bind (.forM (fun q => ?_) z.preds) fun _ _ => ?_
        · exact .bind (hread q) fun o ho => preserves_edit (Edit.yields_pushIncoming v ho q)
        · refine .bind (.act (Track.yields_onTables fun r hr => ⟨hr.defs, hr.vars⟩)) fun _ _ => ?_
          exact preserves_removeTrivial hv n v

theorem preserves_read (n : Nat) (x : VarId) (b : BlockId) :
    Preserves (Tracked.Bears G g₀) G (read n x b) := (preserves_read_parts hv n x).1 b

theorem preserves_drain (n : Nat) (b : BlockId) :
    Preserves (Tracked.Bears G g₀) (fun _ => True) (drain n b) := by
  induction n with
  | zero => exact .cut
  | succ n ih =>
    unfold drain
    refine .look fun s _ => ?_
    split
    · exact .pure trivial
    · refine .bind (.act (Track.yields_onTables fun r hr => ⟨hr.defs, hr.vars⟩)) fun _ _ => ?_
      refine .bind ((preserves_read_parts hv n _).2.2 _) fun _ _ => ?_
      exact .bind (.act (Track.yields_onTables fun r hr => ⟨hr.defs, hr.vars⟩)) fun _ _ => ih

/-- **Sealing a block** makes no operands of its own. -/
theorem preserves_sealBlock (n : Nat) (b : BlockId) :
    Preserves (Tracked.Bears G g₀) (fun _ => True) (sealBlock n b) := by
  refine .bind (preserves_edit (Edit.yields_block b)) fun y _ => ?_
  split
  · exact .throw _
  · refine .bind (preserves_drain hv n b) fun _ _ => preserves_edit ?_
    exact Edit.yields_updateBlock b fun y br o hbr ho hy => hy br hbr o ho

end Course

end BitFlow
