import BitFlow.Proofs.Reaching.Sealing

/-!
# Growing a graph

New blocks, new edges, new instructions and a change of a block's kind, each by what it does to
phis, instructions, shapes and branches.

Main statements: `Graph.Steady.pushBlock`, `Graph.Steady.link`, `Graph.Steady.withInstr`,
`Graph.Steady.updateBlock` -- a growing graph stays steady; `Edit.ends_addEdge`,
`Edit.ends_insertInstr` -- the operations and the graphs they leave.
-/

namespace BitFlow

namespace Graph

variable {g : Graph}

/-! ## 1. New blocks -/

theorem shape_pushBlock (g : Graph) (label : String) (kind : BlockKind) (b : BlockId) :
    (g.pushBlock label kind).shape b =
      if b = g.nextBlock then some ⟨kind, [], [], [], false⟩ else g.shape b := by
  unfold shape
  rw [block?_pushBlock]
  split
  · rfl
  · rfl

theorem branches_pushBlock (g : Graph) (label : String) (kind : BlockKind) (b : BlockId) :
    (g.pushBlock label kind).branches b = g.branches b := by
  unfold branches
  rw [block?_pushBlock]
  split
  · rename_i e
    subst e
    rw [block?_nextBlock]
    rfl
  · rfl

theorem shape_nextBlock (g : Graph) : g.shape g.nextBlock = none := by
  unfold shape
  rw [block?_nextBlock]
  rfl

theorem preds_pushBlock (g : Graph) (label : String) (kind : BlockKind) (b : BlockId) :
    (g.pushBlock label kind).preds b = g.preds b := by
  unfold preds
  rw [shape_pushBlock]
  split
  · rename_i e
    subst e
    rw [shape_nextBlock]
    rfl
  · rfl

theorem isSealed_pushBlock (g : Graph) (label : String) (kind : BlockKind) (b : BlockId) :
    (g.pushBlock label kind).isSealed b = g.isSealed b := by
  unfold isSealed
  rw [shape_pushBlock]
  split
  · rename_i e
    subst e
    rw [shape_nextBlock]
    rfl
  · rfl

theorem refers_pushBlock {label : String} {kind : BlockKind} {v : ValueId} {u : User}
    (h : (g.pushBlock label kind).Refers v u) : g.Refers v u := by
  cases u with
  | value w => exact h
  | branch b =>
    obtain ⟨y, hy, br, hbr, hc⟩ := h
    rw [block?_pushBlock] at hy
    split at hy
    · cases hy
      cases hbr
    · exact ⟨y, hy, br, hbr, hc⟩

/-- **A new block keeps a graph steady.** -/
theorem Steady.pushBlock (h : g.Steady) (label : String) (kind : BlockKind) :
    (g.pushBlock label kind).Steady :=
  ⟨h.orderly.pushBlock label kind,
    ⟨h.forwarding.ordered, h.forwarding.removed, h.forwarding.target_known⟩,
    fun hu => h.knows (refers_pushBlock hu), h.phi_anchors⟩

/-! ## 2. New edges -/

theorem phi?_link (g : Graph) (p : BlockId) (cond : Option Operand) (b : BlockId) (v : ValueId) :
    (g.link p cond b).phi? v = g.phi? v := by
  unfold phi?
  rw [value?_link]

theorem instr?_link (g : Graph) (p : BlockId) (cond : Option Operand) (b : BlockId)
    (v : ValueId) : (g.link p cond b).instr? v = g.instr? v := by
  unfold instr?
  rw [value?_link]

theorem attached_link (g : Graph) (p : BlockId) (cond : Option Operand) (b : BlockId)
    (v : ValueId) : (g.link p cond b).Attached v ↔ g.Attached v := by
  unfold Attached
  rw [value?_link]

theorem size_link (g : Graph) (p : BlockId) (cond : Option Operand) (b : BlockId) :
    (g.link p cond b).values.size = g.values.size := by
  unfold link
  rw [addUses_eq]
  rfl

/-- What an edge from `p` to `b` makes of the shape of the block `c`. -/
def linkShape (p b c : BlockId) (sh : Shape) : Shape :=
  { sh with
    preds := if b = c then (if p ∈ sh.preds then sh.preds else sh.preds ++ [p]) else sh.preds
    targets := if p = c then sh.targets ++ [b] else sh.targets }

theorem shape_link (g : Graph) (p : BlockId) (cond : Option Operand) (b c : BlockId) :
    (g.link p cond b).shape c = (g.shape c).map (linkShape p b c) := by
  unfold shape
  rw [block?_link, Option.map_map, Option.map_map]
  congr 1
  funext y
  by_cases hb : b = c
  · by_cases hp : p = c
    · by_cases hm : p ∈ y.preds <;>
        simp [linkBlock, linkShape, Block.shape, Block.addPred, hb, hp, hp ▸ hm]
    · by_cases hm : p ∈ y.preds <;>
        simp [linkBlock, linkShape, Block.shape, Block.addPred, hb, hp, hm]
  · by_cases hp : p = c <;> simp [linkBlock, linkShape, Block.shape, hb, hp]

theorem branches_link {p : BlockId} {z : Block} (hz : g.block? p = some z)
    (cond : Option Operand) (b c : BlockId) :
    (g.link p cond b).branches c =
      if p = c then g.branches c ++ [⟨cond, b⟩] else g.branches c := by
  unfold branches
  rw [block?_link, Option.map_map]
  by_cases e : p = c
  · subst e
    rw [if_pos rfl, hz]
    simp [linkBlock]
  · rw [if_neg e]
    congr 2
    funext y
    simp [linkBlock, e]

theorem preds_link {b : BlockId} {y : Block} (hb : g.block? b = some y) (p : BlockId)
    (cond : Option Operand) (c : BlockId) :
    (g.link p cond b).preds c =
      if b = c ∧ p ∉ g.preds b then g.preds c ++ [p] else g.preds c := by
  unfold preds
  rw [shape_link]
  by_cases e : b = c
  · subst e
    unfold shape
    rw [hb]
    by_cases hm : p ∈ y.preds <;> simp [linkShape, Block.shape, hm]
  · rw [if_neg fun hc => e hc.1]
    cases g.shape c <;> simp [linkShape, e]

theorem isSealed_link (g : Graph) (p : BlockId) (cond : Option Operand) (b c : BlockId) :
    (g.link p cond b).isSealed c = g.isSealed c := by
  unfold isSealed
  rw [shape_link, Option.map_map]
  rfl

theorem mem_preds_link {b : BlockId} {y : Block} (hb : g.block? b = some y) {p q c : BlockId}
    {cond : Option Operand} :
    q ∈ (g.link p cond b).preds c ↔ q ∈ g.preds c ∨ (c = b ∧ q = p) := by
  rw [preds_link hb]
  by_cases e : b = c
  · subst e
    by_cases hm : p ∈ g.preds b
    · rw [if_neg fun hc => hc.2 hm]
      constructor
      · exact .inl
      · rintro (h | ⟨-, rfl⟩)
        · exact h
        · exact hm
    · rw [if_pos ⟨rfl, hm⟩, List.mem_append, List.mem_singleton]
      simp
  · rw [if_neg fun hc => e hc.1]
    simp [Ne.symm e]

/-- **A new edge keeps a graph steady**, if its condition exists. -/
theorem Steady.link (h : g.Steady) {p b : BlockId} {z y : Block} (hp : g.block? p = some z)
    (hb : g.block? b = some y) {cond : Option Operand} (hc : ∀ o ∈ cond, g.Knows o) :
    (g.link p cond b).Steady := by
  refine ⟨h.orderly.link hp hb cond, ⟨?_, fun v => ?_, fun hm => ?_⟩, fun {v u} hu => ?_,
    fun {v q} hq o ho w hw => ?_⟩
  · rw [forwards_link]
    exact h.forwarding.ordered
  · rw [forwards_link, size_link, attached_link]
    exact h.forwarding.removed v
  · rw [forwards_link] at hm
    rw [size_link]
    exact h.forwarding.target_known hm
  · rw [← (h.orderly.link hp hb cond).mem_users, mem_users_link] at hu
    rw [size_link]
    rcases hu with ⟨-, hu⟩ | hu
    · exact hc _ hu v rfl
    · exact h.knows ((h.orderly.mem_users v u).1 hu)
  · rw [phi?_link] at hq
    rw [attached_link]
    exact h.phi_anchors hq o ho w hw

/-! ## 3. New instructions -/

theorem phi?_withInstr (g : Graph) (b : BlockId) (place : Nat) (ty : Ty) (origin : Origin)
    (i : Instr) (v : ValueId) : (g.withInstr b place ty origin i).phi? v = g.phi? v := by
  unfold phi?
  rw [value?_withInstr]
  split
  · rename_i e
    subst e
    rw [value?_nextValue]
    rfl
  · rfl

theorem instr?_withInstr (g : Graph) (b : BlockId) (place : Nat) (ty : Ty) (origin : Origin)
    (i : Instr) (v : ValueId) :
    (g.withInstr b place ty origin i).instr? v =
      if v = g.nextValue then some ⟨b, ty, i⟩ else g.instr? v := by
  unfold instr?
  rw [value?_withInstr]
  split
  · rfl
  · rfl

theorem attached_withInstr (g : Graph) (b : BlockId) (place : Nat) (ty : Ty) (origin : Origin)
    (i : Instr) (v : ValueId) :
    (g.withInstr b place ty origin i).Attached v ↔ v = g.nextValue ∨ g.Attached v := by
  rw [attached_iff, attached_iff, phi?_withInstr, instr?_withInstr]
  by_cases e : v = g.nextValue
  · simp [e]
  · simp [e]

theorem size_withInstr (g : Graph) (b : BlockId) (place : Nat) (ty : Ty) (origin : Origin)
    (i : Instr) : (g.withInstr b place ty origin i).values.size = g.values.size + 1 := by
  unfold withInstr
  rw [addUses_eq]
  simp [Graph.updateBlock, Graph.pushValue]

theorem forwards_withInstr (g : Graph) (b : BlockId) (place : Nat) (ty : Ty) (origin : Origin)
    (i : Instr) : (g.withInstr b place ty origin i).forwards = g.forwards := by
  unfold withInstr
  rw [forwards_addUses]
  rfl

theorem shape_withInstr (g : Graph) (b : BlockId) (place : Nat) (ty : Ty) (origin : Origin)
    (i : Instr) (c : BlockId) :
    (g.withInstr b place ty origin i).shape c = (g.shape c).map fun sh =>
      { sh with instrs :=
          if b = c then sh.instrs.take place ++ g.nextValue :: sh.instrs.drop place
          else sh.instrs } := by
  unfold shape
  rw [block?_withInstr, Option.map_map, Option.map_map]
  rfl

theorem preds_withInstr (g : Graph) (b : BlockId) (place : Nat) (ty : Ty) (origin : Origin)
    (i : Instr) (c : BlockId) : (g.withInstr b place ty origin i).preds c = g.preds c := by
  unfold preds
  rw [shape_withInstr, Option.map_map]
  rfl

theorem isSealed_withInstr (g : Graph) (b : BlockId) (place : Nat) (ty : Ty) (origin : Origin)
    (i : Instr) (c : BlockId) : (g.withInstr b place ty origin i).isSealed c = g.isSealed c := by
  unfold isSealed
  rw [shape_withInstr, Option.map_map]
  rfl

theorem branches_withInstr (g : Graph) (b : BlockId) (place : Nat) (ty : Ty) (origin : Origin)
    (i : Instr) (c : BlockId) : (g.withInstr b place ty origin i).branches c = g.branches c := by
  unfold branches
  rw [block?_withInstr, Option.map_map]
  rfl

/-- **A new instruction keeps a graph steady**, if its operands exist. -/
theorem Steady.withInstr (h : g.Steady) {b : BlockId} {y : Block} (hb : g.block? b = some y)
    (place : Nat) (ty : Ty) (origin : Origin) {i : Instr} (hi : ∀ o ∈ i.operands, g.Knows o) :
    (g.withInstr b place ty origin i).Steady := by
  have hatt := g.attached_withInstr b place ty origin i
  refine ⟨h.orderly.withInstr hb place ty origin i,
    forwarding_of_new h.forwarding (g.forwards_withInstr b place ty origin i)
      (g.size_withInstr b place ty origin i) hatt, fun {v u} hu => ?_,
    fun {v p} hp o ho w hw => ?_⟩
  · rw [size_withInstr]
    cases u with
    | value w =>
      rw [refers_value_iff, phi?_withInstr, instr?_withInstr] at hu
      rcases hu with hp | ⟨j, hj, hm⟩
      · exact Nat.lt_succ_of_lt (h.knows (refers_value_iff.2 (.inl hp)))
      · split at hj
        · cases hj
          exact Nat.lt_succ_of_lt (hi _ hm v rfl)
        · exact Nat.lt_succ_of_lt (h.knows (refers_value_iff.2 (.inr ⟨j, hj, hm⟩)))
    | branch c =>
      obtain ⟨y', hy', br, hbr, hc⟩ := hu
      rw [block?_withInstr] at hy'
      obtain ⟨z, hz, rfl⟩ := Option.map_eq_some_iff.1 hy'
      exact Nat.lt_succ_of_lt (h.knows ((refers_branch _ _ _).2 ⟨z, hz, br, hbr, hc⟩))
  · rw [phi?_withInstr] at hp
    rw [hatt]
    exact .inr (h.phi_anchors hp o ho w hw)

/-! ## 4. Dead blocks -/

/-- The graph in which nothing reaches `b`. -/
def withDead (g : Graph) (b : BlockId) : Graph :=
  g.updateBlock b fun y => { y with kind := .unreachable }

theorem block?_withDead (g : Graph) (b c : BlockId) : (g.withDead b).block? c =
    (g.block? c).map fun y => if b = c then { y with kind := .unreachable } else y := by
  unfold withDead
  rw [block?_updateBlock]
  by_cases e : b = c
  · simp [e]
  · simp [e]

theorem preds_withDead (g : Graph) (b c : BlockId) : (g.withDead b).preds c = g.preds c := by
  unfold preds shape
  rw [block?_withDead, Option.map_map, Option.map_map, Option.map_map]
  congr 2
  funext y
  show (Block.shape (if b = c then _ else y)).preds = y.shape.preds
  split <;> rfl

theorem isSealed_withDead (g : Graph) (b c : BlockId) :
    (g.withDead b).isSealed c = g.isSealed c := by
  unfold isSealed shape
  rw [block?_withDead, Option.map_map, Option.map_map, Option.map_map]
  congr 2
  funext y
  show (Block.shape (if b = c then _ else y)).isSealed = y.shape.isSealed
  split <;> rfl

theorem branches_withDead (g : Graph) (b c : BlockId) :
    (g.withDead b).branches c = g.branches c := by
  unfold branches
  rw [block?_withDead, Option.map_map]
  congr 2
  funext y
  show Block.branches (if b = c then _ else y) = y.branches
  split <;> rfl

end Graph

/-! ## 5. The operations -/

namespace Edit

variable {g : Graph} {R : Fault → Prop}

/-- A look at a block, whether it exists or not. -/
theorem ends_block_or {Q : Block → Graph → Prop} {b : BlockId} (hR : R (.unknownBlock b))
    (h : ∀ y, g.block? b = some y → Q y g) : Ends (block b) g R Q := by
  cases hy : g.block? b with
  | none =>
    unfold Ends
    rw [run_block, hy]
    exact hR
  | some y =>
    rw [ends_block hy]
    exact h y hy

/-- An edge between two blocks that exist: nothing for a source that nothing reaches, and else the
    edge, which is refused only if the target is sealed and does not know the source. -/
theorem ends_addEdge {Q : Unit → Graph → Prop} {p b : BlockId} {z y : Block}
    {cond : Option Operand} (hp : g.block? p = some z) (hb : g.block? b = some y)
    (hdead : z.isUnreachable = true → Q () g)
    (hlate : z.isUnreachable = false → y.isSealed = true → p ∉ y.preds →
      R (.violated (.lateEdge p b)))
    (hlive : z.isUnreachable = false → (y.isSealed = false ∨ p ∈ y.preds) →
      Q () (g.link p cond b)) : Ends (addEdge p cond b) g R Q := by
  unfold addEdge
  rw [Ends.bind_iff, ends_block hp]
  cases hz : z.isUnreachable with
  | true => exact hdead hz
  | false =>
    simp only [Bool.false_eq_true, if_false]
    rw [Ends.bind_iff, ends_block hb]
    split
    · rename_i hc
      have hc' : y.isSealed = true ∧ p ∉ y.preds := by simpa using hc
      exact hlate hz hc'.1 hc'.2
    · rename_i hc
      have hc' : y.isSealed = true → p ∈ y.preds := by simpa using hc
      refine hlive hz ?_
      cases hs : y.isSealed with
      | false => exact .inl rfl
      | true => exact .inr (hc' hs)

/-- An edge between any two blocks: where it is not refused nothing happens, or there is a source
    and the edge is made. -/
theorem ends_addEdge_or {Q : Unit → Graph → Prop} {p b : BlockId} {cond : Option Operand}
    (hdead : Q () g) (hlive : ∀ z, g.block? p = some z → Q () (g.link p cond b)) :
    Ends (addEdge p cond b) g (fun _ => True) Q := by
  unfold addEdge
  rw [Ends.bind_iff]
  refine ends_block_or trivial fun z hz => ?_
  split
  · exact hdead
  rw [Ends.bind_iff]
  refine ends_block_or trivial fun y _ => ?_
  split
  · trivial
  · exact hlive z hz

/-- An instruction at a place inside a block. -/
theorem ends_insertInstr {Q : ValueId → Graph → Prop} {b : BlockId} {y : Block}
    {position : Option Nat} {ty : Ty} {origin : Origin} {i : Instr} (hb : g.block? b = some y)
    (hpast : y.instrs.length < position.getD y.instrs.length →
      R (.violated (.pastEnd (position.getD y.instrs.length) b y.instrs.length)))
    (h : position.getD y.instrs.length ≤ y.instrs.length →
      Q g.nextValue (g.withInstr b (position.getD y.instrs.length) ty origin i)) :
    Ends (insertInstr b position ty origin i) g R Q := by
  unfold insertInstr
  rw [Ends.bind_iff, ends_block hb]
  show Ends (if _ then _ else _) g R Q
  split
  · rename_i hlt
    exact hpast hlt
  · rename_i hle
    exact h (Nat.le_of_not_lt hle)

end Edit

end BitFlow
