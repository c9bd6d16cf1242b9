import BitFlow.Proofs.Graph.Owner
import BitFlow.Proofs.Reaching.Frame
import BitFlow.Proofs.Reaching.Removal

/-!
# Reading and sealing where nothing leads

Dead code is lowered in an enclave: the dead block where it starts, and blocks that are made on the
way. No edge leads into such a block, so nothing is looked for outside: what is read there is
recorded there, waits there, or is undefined. The values of an enclave are the new ones and those of
the block where it starts. New values are used by new ones only, so a phi that is removed takes
nothing outside with it.

Whatever is done to blocks and values of the enclave leaves blocks, values, users and definitions
outside as they were (`Enclave.Confines`), with an answer or with a fault.

Main statements: `Enclave.yields_read`, `Enclave.yields_sealBlock`.
-/

namespace BitFlow

/-! ## 1. Enclaves -/

/-- **An enclave**: the state in which dead code is begun, and the block at the end of which. -/
structure Enclave where
  before : Tracked
  start : BlockId

/-- The block is dead, and nothing leads there. -/
def Block.Stranded (y : Block) : Prop := y.isUnreachable = true ∧ y.preds = []

namespace Enclave

variable (E : Enclave)

/-- The block has been made since. -/
def Made (c : BlockId) : Prop := E.before.graph.blocks.size ≤ c.index

/-- The block is the one where the enclave starts, or has been made since. -/
def Covers (c : BlockId) : Prop := c = E.start ∨ E.Made c

/-- The value is one of the block where the enclave starts, or has been made since. -/
def Has (v : ValueId) : Prop := E.before.graph.Lacks v ∨ E.before.graph.Owns E.start v

/-- The operand is no value, or one of the enclave. -/
def Admits (o : Operand) : Prop := ∀ v, o = .value v → E.Has v

/-- The value is in a block of the enclave, if it is in one, and so are its operands. -/
structure Lodges (x : Value) : Prop where
  block : ∀ c, x.block = some c → E.Covers c
  operands : ∀ o ∈ x.operands, E.Admits o

/-- **The graph is as it was outside the enclave.** Inside, no edge leads to a block, new values
    stand in blocks of the enclave, have operands of it and are used by new values only, and the
    values that stand for removed ones are of the enclave as well. -/
structure Contains (g : Graph) : Prop where
  sizes : E.before.graph.blocks.size ≤ g.blocks.size ∧
    E.before.graph.values.size ≤ g.values.size
  block : ∀ c, ¬ E.Covers c → g.block? c = E.before.graph.block? c
  value : ∀ v, ¬ E.Has v → g.value? v = E.before.graph.value? v
  users : ∀ v, ¬ E.Has v → g.users v = E.before.graph.users v
  stranded : ∀ {c y}, E.Covers c → g.block? c = some y → y.Stranded
  lodged : ∀ {v x}, E.before.graph.Lacks v → g.value? v = some x → E.Lodges x
  used : ∀ {v u}, E.before.graph.Lacks v → u ∈ g.users v → E.before.graph.LacksUser u
  forwards : ∀ {v o}, E.Has v → g.forwards.get? v = some o → E.Admits o

/-- **The tables are as they were outside the enclave.** Inside, operands of the enclave are
    recorded, no place outside records a new value, and the phis that wait in new blocks are new. -/
structure Records (r : Reaching) : Prop where
  outside : ∀ x c, ¬ E.Covers c → r.definition? x c = E.before.reaching.definition? x c
  inside : ∀ {x c o}, E.Covers c → r.definition? x c = some o → E.Admits o
  holders : ∀ {v q}, E.before.graph.Lacks v → q ∈ r.holders.image v → E.Covers q.1
  pending : ∀ {c x v}, E.Made c → (x, v) ∈ r.pending.image c → E.before.graph.Lacks v

/-- **Graph and tables are as they were outside the enclave.** -/
structure Confines (s : Tracked) : Prop where
  graph : E.Contains s.graph
  tables : E.Records s.reaching

variable {E}

theorem admits_lit (c : Literal) : E.Admits (.lit c) := fun _ hv => by cases hv

theorem admits_undef (ty : Ty) : E.Admits (.undef ty) := fun _ hv => by cases hv

theorem admits_new {v : ValueId} (hv : E.before.graph.Lacks v) : E.Admits (.value v) :=
  fun w hw => by
    cases hw
    exact .inl hv

theorem not_mem_of_admits {v : ValueId} (hv : ¬ E.Has v) {ops : List Operand}
    (hops : ∀ o ∈ ops, E.Admits o) : .value v ∉ ops := fun hm => hv (hops _ hm v rfl)

/-! ## 2. The graph -/

namespace Contains

variable {g g' : Graph} {b : BlockId} {v : ValueId}

theorem lacks_next (h : E.Contains g) : E.before.graph.Lacks g.nextValue := h.sizes.2

theorem made_next (h : E.Contains g) : E.Made g.nextBlock := h.sizes.1

/-- Only the table of users changes. -/
theorem reuse (h : E.Contains g) (hg : g' = { g with uses := g'.uses })
    (hout : ∀ w, ¬ E.Has w → g'.users w = g.users w)
    (hin : ∀ {w u}, E.before.graph.Lacks w → u ∈ g'.users w → E.before.graph.LacksUser u) :
    E.Contains g' := by
  refine ⟨?_, fun c hc => ?_, fun w hw => ?_, fun w hw => (hout w hw).trans (h.users w hw),
    fun hc hy => ?_, fun hw hx => ?_, hin, fun hw ho => ?_⟩
  · rw [hg]
    exact h.sizes
  · rw [hg]
    exact h.block c hc
  · rw [hg]
    exact h.value w hw
  · rw [hg] at hy
    exact h.stranded hc hy
  · rw [hg] at hx
    exact h.lodged hw hx
  · rw [hg] at ho
    exact h.forwards hw ho

theorem addUses (h : E.Contains g) {u : User} (hu : E.before.graph.LacksUser u)
    {ops : List Operand} (hops : ∀ o ∈ ops, E.Admits o) : E.Contains (g.addUses u ops) := by
  refine h.reuse (g.addUses_eq u ops) (fun w hw => ?_) fun {w u'} hw hu' => ?_
  · exact g.users_addUses_of_not_mem u (not_mem_of_admits hw hops)
  · rw [Graph.mem_users_addUses] at hu'
    rcases hu' with ⟨rfl, -⟩ | hu'
    · exact hu
    · exact h.used hw hu'

theorem removeUses (h : E.Contains g) (u : User) {ops : List Operand}
    (hops : ∀ o ∈ ops, E.Admits o) : E.Contains (g.removeUses u ops) := by
  refine h.reuse (g.removeUses_eq u ops) (fun w hw => ?_) fun {w u'} hw hu' => ?_
  · exact g.users_removeUses_of_not_mem u (not_mem_of_admits hw hops)
  · rw [Graph.mem_users_removeUses] at hu'
    exact h.used hw hu'.1

theorem drop (h : E.Contains g) (hv : E.before.graph.Lacks v) :
    E.Contains { g with uses := g.uses.drop v } := by
  refine h.reuse rfl (fun w hw => ?_) fun {w u} hw hu => ?_
  · refine (Multimap.image_setImage _ _ _ _).trans (if_neg ?_)
    rintro rfl
    exact hw (.inl hv)
  · exact h.used hw ((g.uses.mem_image_drop v w u).1 hu).1

theorem updateValue (h : E.Contains g) (hv : E.Has v) {f : Value → Value}
    (hf : ∀ x, E.Lodges x → E.Lodges (f x)) : E.Contains (g.updateValue v f) := by
  refine ⟨⟨h.sizes.1, ?_⟩, h.block, fun w hw => ?_, h.users, h.stranded, fun {w x} hw hx => ?_,
    h.used, h.forwards⟩
  · show _ ≤ (g.values.modify v.index f).size
    rw [Array.size_modify]
    exact h.sizes.2
  · rw [Graph.value?_updateValue, if_neg]
    · exact h.value w hw
    · rintro rfl
      exact hw hv
  · rw [Graph.value?_updateValue] at hx
    split at hx
    · obtain ⟨z, hz, rfl⟩ := Option.map_eq_some_iff.1 hx
      exact hf z (h.lodged hw hz)
    · exact h.lodged hw hx

theorem updateBlock (h : E.Contains g) (hb : E.Covers b) {f : Block → Block}
    (hf : ∀ y, y.Stranded → (f y).Stranded) : E.Contains (g.updateBlock b f) := by
  refine ⟨⟨?_, h.sizes.2⟩, fun c hc => ?_, h.value, h.users, fun {c y} hc hy => ?_, h.lodged,
    h.used, h.forwards⟩
  · show _ ≤ (g.blocks.modify b.index f).size
    rw [Array.size_modify]
    exact h.sizes.1
  · rw [Graph.block?_updateBlock, if_neg]
    · exact h.block c hc
    · rintro rfl
      exact hc hb
  · rw [Graph.block?_updateBlock] at hy
    split at hy
    · obtain ⟨z, hz, rfl⟩ := Option.map_eq_some_iff.1 hy
      exact hf z (h.stranded hc hz)
    · exact h.stranded hc hy

theorem pushValue (h : E.Contains g) (hb : E.Covers b) (ty : Ty) (origin : Origin)
    (kind : ValueKind)
    (hops : ∀ o ∈ (Value.mk g.nextValue ty none origin b kind).operands, E.Admits o) :
    E.Contains (g.pushValue ty origin b kind) := by
  refine ⟨⟨h.sizes.1, ?_⟩, h.block, fun w hw => ?_, h.users, h.stranded, fun {w x} hw hx => ?_,
    h.used, h.forwards⟩
  · show _ ≤ (g.values.push _).size
    rw [Array.size_push]
    exact Nat.le_succ_of_le h.sizes.2
  · rw [Graph.value?_pushValue, if_neg]
    · exact h.value w hw
    · rintro rfl
      exact hw (.inl h.lacks_next)
  · rw [Graph.value?_pushValue] at hx
    split at hx
    · cases hx
      refine ⟨fun c hc => ?_, hops⟩
      cases hc
      exact hb
    · exact h.lodged hw hx

/-- An instruction in a block of the enclave, whose operands are of the enclave. -/
theorem withInstr (h : E.Contains g) (hb : E.Covers b) (place : Nat) (ty : Ty) (origin : Origin)
    {i : Instr} (hi : ∀ o ∈ i.operands, E.Admits o) :
    E.Contains (g.withInstr b place ty origin i) := by
  have hpushed := h.pushValue hb ty origin (.instr i) hi
  unfold Graph.withInstr
  exact (hpushed.updateBlock hb (f := fun y =>
    { y with instrs := y.instrs.take place ++ g.nextValue :: y.instrs.drop place })
    fun _ hy => hy).addUses ⟨_, rfl, h.lacks_next⟩ hi

theorem pushBlock (h : E.Contains g) (label : String) :
    E.Contains (g.pushBlock label .unreachable) := by
  refine ⟨⟨?_, h.sizes.2⟩, fun c hc => ?_, h.value, h.users, fun {c y} hc hy => ?_, h.lodged,
    h.used, h.forwards⟩
  · show _ ≤ (g.blocks.push _).size
    rw [Array.size_push]
    exact Nat.le_succ_of_le h.sizes.1
  · rw [Graph.block?_pushBlock, if_neg]
    · exact h.block c hc
    · rintro rfl
      exact hc (.inr h.made_next)
  · rw [Graph.block?_pushBlock] at hy
    split at hy
    · cases hy
      exact ⟨rfl, rfl⟩
    · exact h.stranded hc hy

theorem setForward (h : E.Contains g) (v : ValueId) {o : Operand} (ho : E.Admits o) :
    E.Contains (g.setForward v o) := by
  refine ⟨h.sizes, h.block, h.value, h.users, h.stranded, h.lodged, h.used, fun {w a} hw ha => ?_⟩
  change (g.forwards.insert v o).get? w = some a at ha
  rw [Table.get?_insert] at ha
  split at ha
  · cases ha
    exact ho
  · exact h.forwards hw ha

/-- What an operand of the enclave stands for is one of the enclave. -/
theorem resolve (h : E.Contains g) {o : Operand} (ho : E.Admits o) : E.Admits (g.resolve o) :=
  Graph.of_resolve (fun {v _} hv hnext => h.forwards (hv v rfl) hnext) ho

end Contains

/-! ## 3. Operations on the graph -/

section Edits

variable {b : BlockId} {v : ValueId} {o : Operand}

theorem yields_block (hb : E.Covers b) : Yields E.Contains Block.Stranded (Edit.block b) :=
  fun _ hg => Graph.leaves_block (fun _ => hg) fun _ hy => ⟨hg, hg.stranded hb hy⟩

theorem yields_value (hv : E.before.graph.Lacks v) :
    Yields E.Contains E.Lodges (Edit.value v) :=
  fun _ hg => Graph.leaves_value (fun _ => hg) fun _ hx => ⟨hg, hg.lodged hv hx⟩

theorem yields_updateValue (hv : E.Has v) {f : Value → Value}
    (hf : ∀ x, E.Lodges x → E.Lodges (f x)) :
    Yields E.Contains (fun _ => True) (Edit.updateValue v f) :=
  Edit.yields_changeValue fun _ hg => hg.updateValue hv hf

theorem yields_updateBlock (hb : E.Covers b) {f : Block → Block}
    (hf : ∀ y, y.Stranded → (f y).Stranded) :
    Yields E.Contains (fun _ => True) (Edit.updateBlock b f) :=
  Edit.yields_changeBlock fun _ hg => hg.updateBlock hb hf

theorem yields_resolve (ho : E.Admits o) : Yields E.Contains E.Admits (Edit.resolve o) :=
  .look fun _ hg => .pure (hg.resolve ho)

theorem yields_deadEnd (label : String) :
    Yields E.Contains E.Made (Edit.addBlock label .unreachable) :=
  .look fun _ hg => .bind (.set (hg.pushBlock label)) fun _ _ => .pure hg.made_next

/-- **No edge leaves a block of the enclave.** -/
theorem yields_addEdge (hb : E.Covers b) (cond : Option Operand) (c : BlockId) :
    Yields E.Contains (fun _ => True) (Edit.addEdge b cond c) := by
  refine (yields_block hb).bind fun y hy => ?_
  rw [if_pos hy.1]
  exact .pure trivial

theorem yields_appendPhi (hb : E.Covers b) (x : VarId) (ty : Ty) :
    Yields E.Contains E.before.graph.Lacks (Edit.appendPhi b x ty) := by
  refine (yields_block hb).bind fun _ _ => .look fun g hg => ?_
  refine .bind (.set (hg.pushValue hb ty _ _ fun o ho => by cases ho)) fun _ _ => ?_
  exact .bind (.modify fun _ h => h.updateBlock hb fun _ hy => hy) fun _ _ => .pure hg.lacks_next

/-- Those who use a new value are new. -/
theorem yields_replaceUses (hv : E.before.graph.Lacks v) (ho : E.Admits o) :
    Yields E.Contains (fun former => ∀ u ∈ former, E.before.graph.LacksUser u)
      (Edit.replaceUses v o) := by
  refine .look fun g hg => .bind (.modify fun _ h => h.drop hv) fun _ _ => ?_
  refine .bind (.forM_mem _ fun u hu => ?_) fun _ _ => .pure fun u hu => hg.used hv hu
  obtain ⟨w, rfl, hw⟩ := hg.used hv hu
  refine .bind (yields_updateValue (.inl hw) fun x hx => ⟨hx.block, fun a ha => ?_⟩) fun _ _ =>
    .modify fun _ h => h.addUses ⟨w, rfl, hw⟩ (List.forall_mem_singleton.2 ho)
  rw [Value.operands_replace] at ha
  obtain ⟨a', ha', rfl⟩ := List.mem_map.1 ha
  unfold Operand.replace
  split
  · exact ho
  · exact hx.operands a' ha'

theorem yields_detach (hv : E.before.graph.Lacks v) :
    Yields E.Contains (fun _ => True) (Edit.detach v) := by
  refine (yields_value hv).bind fun x hx => ?_
  split
  · exact .pure trivial
  · rename_i c hc
    refine .bind (yields_updateBlock (hx.block c hc) fun y hy => ?_) fun _ _ => ?_
    · split <;> exact hy
    · refine .bind (.modify fun _ h => h.removeUses _ hx.operands) fun _ _ => ?_
      refine .modify fun _ h => h.updateValue (.inl hv) fun y hy => ⟨fun c hc => ?_, hy.operands⟩
      cases hc

end Edits

/-! ## 4. The tables -/

namespace Records

variable {r : Reaching}

theorem congr (h : E.Records r) {r' : Reaching} (hd : r'.defs = r.defs)
    (hh : r'.holders = r.holders) (hp : r'.pending = r.pending) : E.Records r' := by
  obtain ⟨vars, defs, holders, pending, filling, nameValues, versions, stats⟩ := r'
  subst hd hh hp
  exact ⟨h.outside, h.inside, h.holders, h.pending⟩

theorem record (h : E.Records r) (x : VarId) {b : BlockId} (hb : E.Covers b) {o : Operand}
    (ho : E.Admits o) : E.Records (r.record x b o) := by
  refine ⟨fun y c hc => ?_, fun {y c a} hc ha => ?_, fun {v q} hv hq => ?_, h.pending⟩
  · rw [Reaching.definition?_record, if_neg]
    · exact h.outside y c hc
    · rintro ⟨rfl, -⟩
      exact hc hb
  · rw [Reaching.definition?_record] at ha
    split at ha
    · cases ha
      exact ho
    · exact h.inside hc ha
  · rw [Reaching.mem_holders_record] at hq
    rcases hq with ⟨-, rfl⟩ | ⟨hq, -⟩
    · exact hb
    · exact h.holders hv hq

theorem reroute (h : E.Records r) {v : ValueId} (hv : E.before.graph.Lacks v) {o : Operand}
    (ho : E.Admits o) : E.Records (r.reroute v o) := by
  unfold Reaching.reroute
  refine List.foldlRecOn _ _ ?_ fun r' hr' q hq => hr'.record q.2 (h.holders hv hq) ho
  exact ⟨h.outside, h.inside,
    fun hw hq => h.holders hw ((r.holders.mem_image_drop _ _ _).1 hq).1, h.pending⟩

end Records

/-! ## 5. Reading -/

section Reads

variable {α : Type} {A : α → Prop} {b : BlockId} {v : ValueId} {o : Operand}

theorem yields_edit {x : Edit α} (hx : Yields E.Contains A x) :
    Yields E.Confines A (liftM x : Track α) :=
  .focus (fun _ hs => hs.graph) (fun _ _ hs hg => ⟨hg, hs.tables⟩) hx

theorem yields_onTables {f : Reaching → Reaching} (hf : ∀ r, E.Records r → E.Records (f r)) :
    Yields E.Confines (fun _ => True) (Track.onTables f) :=
  .modify fun _ hs => ⟨hs.graph, hf _ hs.tables⟩

theorem yields_declaration (x : VarId) :
    Yields E.Confines (fun _ => True) (Track.declaration x) := by
  refine .look fun s _ => ?_
  split
  · exact .pure trivial
  · exact .throw _

theorem yields_nameAfter (x : VarId) (ho : E.Admits o) :
    Yields E.Confines (fun _ => True) (Track.nameAfter x o) := by
  refine .look fun _ _ => ?_
  split
  · split
    · rename_i v
      refine .bind (yields_edit (Edit.yields_seeValue v)) fun y _ => ?_
      split
      · refine .look fun _ _ => .bind (yields_declaration x) fun d _ => ?_
        refine .bind (yields_onTables fun _ hr => hr.congr rfl rfl rfl)
          fun _ _ => yields_edit ?_
        exact yields_updateValue (ho v rfl) fun y hy => ⟨hy.block, hy.operands⟩
      · exact .pure trivial
    · exact .pure trivial
  · exact .pure trivial

theorem yields_newPhi (hb : E.Covers b) (x : VarId) :
    Yields E.Confines E.before.graph.Lacks (Track.newPhi b x) := by
  refine .bind (yields_declaration x) fun d _ => ?_
  refine .bind (yields_edit (yields_appendPhi hb x d.ty)) fun v hv => ?_
  refine .bind (yields_onTables fun _ hr => hr.congr rfl rfl rfl)
    fun _ _ => ?_
  exact .bind (yields_nameAfter x (admits_new hv)) fun _ _ => .pure hv

theorem yields_retire (hv : E.before.graph.Lacks v) (ho : E.Admits o) :
    Yields E.Confines (fun former => ∀ u ∈ former, E.before.graph.LacksUser u)
      (Track.retire v o) := by
  refine .bind (yields_edit (yields_replaceUses hv ho)) fun former hformer => ?_
  refine .bind (yields_edit (yields_detach hv)) fun _ _ => ?_
  refine .bind (yields_edit (.modify fun _ h => h.setForward v ho)) fun _ _ => ?_
  refine .bind (yields_onTables fun r hr => ?_) fun _ _ => .pure hformer
  exact (hr.reroute hv ho).congr rfl rfl rfl

/-- What a new phi stands for that is superfluous. -/
theorem yields_trivialReplacement (hv : E.before.graph.Lacks v) :
    Yields E.Confines (fun o? => ∀ o, o? = some o → E.Admits o)
      (Track.ask (·.trivialReplacement v)) := by
  refine .look fun s hs => ?_
  split
  · rename_i o? ho
    refine .pure fun o e => ?_
    obtain ⟨x, hx, -, hmem | rfl⟩ := Track.exists_of_trivialReplacement (e ▸ ho)
    · exact (hs.graph.lodged hv hx).operands o hmem
    · exact admits_undef _
  · exact .throw _

/-- **A cascade that starts at a new phi reaches new phis only.** -/
theorem yields_removeTrivialWithin (n : Nat) (hv : E.before.graph.Lacks v) :
    Yields E.Confines E.Admits (Track.removeTrivialWithin n v) := by
  induction n generalizing v with
  | zero => exact .throw _
  | succ n ih =>
    refine .bind (yields_edit (yields_value hv)) fun x _ => ?_
    split
    · refine .bind (yields_trivialReplacement hv) fun o? ho => ?_
      split
      · exact .pure (admits_new hv)
      · refine .bind (yields_retire hv (ho _ rfl)) fun former hformer => ?_
        refine .bind (.forM_mem former fun u hu => ?_) fun _ _ =>
          yields_edit (yields_resolve (ho _ rfl))
        -- the cascade goes on at the former users, which are new as the phi is
        obtain ⟨w, rfl, hw⟩ := hformer u hu
        refine .look fun s _ => ?_
        split
        · exact .pure trivial
        · refine .bind (yields_edit (yields_value hw)) fun y _ => ?_
          split
          · exact (ih hw).discard
          · exact .pure trivial
    · exact yields_edit (yields_resolve (admits_new hv))

/-- **A new phi has no operand to be found**, since nothing leads to its block. -/
theorem yields_fillWith (read : BlockId → Track Operand) (hv : E.before.graph.Lacks v) :
    Yields E.Confines E.Admits (Track.fillWith read v) := by
  refine .bind (yields_edit (yields_value hv)) fun x hx => ?_
  split
  · exact .throw _
  · rename_i c hc
    refine .bind (yields_edit (yields_block (hx.block c hc))) fun y hy => ?_
    refine .bind (yields_onTables fun _ hr => hr.congr rfl rfl rfl)
      fun _ _ => ?_
    rw [hy.2]
    refine .bind (.forM_mem [] fun _ hq => by cases hq) fun _ _ => ?_
    refine .bind (yields_onTables fun _ hr => hr.congr rfl rfl rfl)
      fun _ _ => ?_
    exact .look fun s _ => yields_removeTrivialWithin _ hv

theorem yields_readThrough (read : BlockId → Track Operand) (x : VarId) (hb : E.Covers b) :
    Yields E.Confines E.Admits (Track.readThrough read x b) := by
  refine .bind (yields_declaration x) fun d _ => ?_
  refine .bind (yields_edit (yields_block hb)) fun y hy => ?_
  split
  · -- sealed, and no predecessor to read from
    rw [hy.2]
    exact .pure (admits_undef _)
  · refine .bind (yields_newPhi hb x) fun v hv => ?_
    refine .bind (yields_onTables fun r hr => ⟨hr.outside, hr.inside, hr.holders, ?_⟩) fun _ _ =>
      .pure (admits_new hv)
    intro c z w hc hw
    rw [Multimap.mem_image_add] at hw
    rcases hw with ⟨-, e⟩ | hw
    · cases e
      exact hv
    · exact hr.pending hc hw

theorem yields_readWithin (n : Nat) (x : VarId) (hb : E.Covers b) :
    Yields E.Confines E.Admits (Track.readWithin n x b) := by
  unfold Track.readWithin
  refine .look fun s hs => ?_
  split
  · rename_i o ho
    exact yields_edit (yields_resolve (hs.tables.inside hb ho))
  · split
    · exact .throw _
    · refine .bind (yields_readThrough _ x hb) fun o ho => ?_
      refine .bind (yields_edit (yields_resolve ho)) fun o ho => ?_
      exact .bind (yields_onTables fun r hr => hr.record x hb ho) fun _ _ => .pure ho

/-- **A read at a block of the enclave leaves everything outside alone**, and its answer is of the
    enclave. -/
theorem yields_read (x : VarId) (hb : E.Covers b) :
    Yields E.Confines E.Admits (Track.read x b) := .look fun _ _ => yields_readWithin _ x hb

/-! ## 6. Sealing -/

theorem yields_fillPending (b : BlockId) (ws : List (VarId × ValueId))
    (hws : ∀ w ∈ ws, E.before.graph.Lacks w.2) :
    Yields E.Confines (fun _ => True) (Track.fillPending b ws) := by
  induction ws with
  | nil => exact .pure trivial
  | cons w ws ih =>
    obtain ⟨hw, hws⟩ := List.forall_mem_cons.1 hws
    refine .bind (yields_onTables fun r hr => ⟨hr.outside, hr.inside, hr.holders, ?_⟩) fun _ _ => ?_
    · exact fun hc hz => hr.pending hc ((r.pending.mem_image_remove _ _ _ _).1 hz).1
    refine .bind (yields_fillWith _ hw).discard fun _ _ => ?_
    exact .bind (yields_onTables fun _ hr => hr.congr rfl rfl rfl)
      fun _ _ => ih hws

/-- **Sealing a new block leaves everything outside the enclave alone.** -/
theorem yields_sealBlock (hb : E.Made b) :
    Yields E.Confines (fun _ => True) (Track.sealBlock b) := by
  refine .bind (yields_edit (yields_block (.inr hb))) fun y _ => ?_
  split
  · exact .throw _
  · refine .look fun s hs => ?_
    refine .bind (yields_fillPending b _ fun w hw => hs.tables.pending hb hw) fun _ _ => ?_
    exact yields_edit (yields_updateBlock (.inr hb) fun y hy => hy)

end Reads

end Enclave

end BitFlow
