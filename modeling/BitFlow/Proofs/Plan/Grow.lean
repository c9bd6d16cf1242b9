import BitFlow.Proofs.Plan.Basic

/-!
# Building to a plan

Each operation on the graph is a change of the plan: a read and the seal of a block make roles for
new phis, and blocks, jumps, instructions and writes are added as they are.

Main statements: `Built.read`, `Built.close`, `Built.addBlock`, `Built.link`, `Built.emit`,
`Built.write`, `Built.kill` -- the graph stays built to the plan, and the meanings of the later plan
are meanings of the earlier one.
-/

namespace BitFlow

/-! ## 1. Operands for use in a block -/

/-- **The operand can be used in `b`**: it is attached and available there. -/
structure Offers (p : Plan) (s : Tracked) (b : BlockId) (o : Operand) : Prop where
  anchors : s.graph.Anchors o
  avail : ∀ {T : Type} {m : Meaning T}, Models p.toDraft s m → m.Avail o b

theorem Offers.lit (p : Plan) (s : Tracked) (b : BlockId) (c : Literal) : Offers p s b (.lit c) :=
  ⟨s.graph.anchors_lit c, fun _ => Meaning.avail_lit c b⟩

theorem Offers.later {p p' : Plan} {s s' : Tracked} {b : BlockId} {o : Operand}
    (h : Offers p s b o) (hl : Later p.toDraft s p'.toDraft s')
    (ha : s.graph.Anchors o → s'.graph.Anchors o) : Offers p' s' b o :=
  ⟨ha h.anchors, fun hm => h.avail (hl.models hm)⟩

namespace Built

variable {p : Plan} {s t : Tracked}

/-! ## 2. Reading and closing -/

/-- A graph of which only phis and seals have changed is built to the plan with the new roles. -/
theorem carry (h : Built p s) {R' : Roles} {closed : BlockId → Bool}
    (hd : Drawn ⟨R', p.writes⟩ t) (hl : Later p.toDraft s ⟨R', p.writes⟩ t)
    (hg : p.roles.Grows R') (hset : s.graph.Settles t.graph)
    (hres : ∀ o, t.graph.resolve (s.graph.resolve o) = t.graph.resolve o)
    (hentry : t.graph.entry = s.graph.entry) (hvars : t.reaching.vars = s.reaching.vars)
    (hsize : t.graph.blocks.size = s.graph.blocks.size)
    (hblock : ∀ {c y'}, t.graph.block? c = some y' → y'.isSealed = closed c ∧
      ∃ y, s.graph.block? c = some y ∧ y'.kind = y.kind ∧ y'.instrs = y.instrs)
    (hbare : ∀ {c : BlockId}, p.count ≤ c.index → closed c = false) :
    Built { p with roles := R', closed := closed } t := by
  refine ⟨hd, hset.anchored hd.sane.steady hl.size h.anchored, ⟨h.wired.no_entry, h.wired.source⟩,
    hentry.trans h.entry, hsize.trans h.size, fun {c y'} hy' => ?_, fun hc => ?_, fun v => ?_,
    fun c => ?_, h.ordered, fun {v b ty i} hr o ho => ?_, fun hbr hc => ?_, fun {b x o} hw => ?_⟩
  · obtain ⟨h1, y, hy, h2, h3⟩ := hblock hy'
    obtain ⟨g1, -, g3⟩ := h.block hy
    refine ⟨?_, h1, h3.trans g3⟩
    rw [← show y.isUnreachable = p.dead c from g1]
    unfold Block.isUnreachable
    rw [h2]
  · obtain ⟨-, h2⟩ := h.bare hc
    exact ⟨hbare hc, h2⟩
  · show t.graph.instr? v = (R'.instr? v).map t.graph.settleInstr
    rw [hset.instr, h.instr, hg.instr?, Option.map_map]
    congr 1
    funext i
    simp [Graph.settleInstr, Function.comp_def, hres]
  · show t.graph.branches c = (p.jumps c).map t.graph.settleBranch
    rw [hset.branches, h.branches, List.map_map]
    congr 1
    funext br
    simp [Graph.settleBranch, Function.comp_def, hres]
  · obtain ⟨h1, h2⟩ := h.operands (hg.code hr) o ho
    exact ⟨h1, fun hm => h2 (hl.models hm)⟩
  · obtain ⟨h1, h2⟩ := h.conds hbr hc
    exact ⟨h1.mono hl.size, fun hm => h2 (hl.models hm)⟩
  · obtain ⟨d, hd', ht⟩ := h.typed hw
    refine ⟨d, by rw [hvars]; exact hd', ?_⟩
    show R'.typeOf t.reaching.vars o = d.ty
    rw [hvars, Roles.typeOf_keep hg.keep _ (h.roles_knows (h.drawn.writes_known hw)), ht]

/-- **A read**: the answer can be used where it was asked for, and holds what the variable holds
    there. -/
theorem read (h : Built p s) {x : VarId} {b : BlockId} {o : Operand}
    (hr : Track.DidRead none x b s o t) : ∃ R', p.roles.Grows R' ∧
      Built { p with roles := R' } t ∧ Later p.toDraft s ⟨R', p.writes⟩ t ∧
      Offers { p with roles := R' } t b o ∧
      ∀ {T : Type} {m : Meaning T}, Models ⟨R', p.writes⟩ t m →
        ∀ π, m.Path (b :: π) → m.mean o (b :: π) = m.content p.writes b π x := by
  have hk := hr.kept h.drawn.sane
  obtain ⟨R', hg, hd, hl, hans⟩ := h.drawn.didRead hr
  have hb : Built { p with roles := R' } t := by
    refine h.carry hd hl hg (hk.settles h.anchored) hk.resolve hk.entry hk.vars
      (Graph.blocks_size_congr hk.shape) (fun {c y'} hy' => ?_) fun hc => (h.bare hc).1
    obtain ⟨y, hy, e⟩ := hk.block_back hy'
    obtain ⟨-, g2, -⟩ := h.block hy
    exact ⟨(congrArg Shape.isSealed e).trans g2, y, hy, congrArg Shape.kind e,
      congrArg Shape.instrs e⟩
  exact ⟨R', hg, hb, hl, ⟨hd.sane.anchors_reached hr.answer, fun hm => (hans hm).1⟩,
    fun hm => (hans hm).2⟩

/-- **A block is closed.** -/
theorem close (h : Built p s) {b : BlockId} {y : Block} {u : Tracked} {made : List NewPhi}
    (hb : s.graph.block? b = some y) (hst : Steps 0 (fun _ => True) (some b) s made u)
    (hfill : u.reaching.filling = s.reaching.filling)
    (ht : Sane none { u with graph := u.graph.withSeal b })
    (hgone : s.graph.preds b = [] → ∀ v p, u.graph.phi? v = some p → p.block ≠ b) :
    ∃ R', p.roles.Grows R' ∧ Built (p.close b R') { u with graph := u.graph.withSeal b } ∧
      Later p.toDraft s ⟨R', p.writes⟩ { u with graph := u.graph.withSeal b } := by
  have hk := hst.kept (h.drawn.sane.closing b) (Nat.zero_le _)
  obtain ⟨R', hg, hd, hl⟩ := h.drawn.sealed hb hst hfill ht hgone
  have hset := hk.settles h.anchored
  have hf : (u.graph.withSeal b).forwards = u.graph.forwards := rfl
  have hseal : s.graph.Settles (u.graph.withSeal b) := by
    refine ⟨fun v => ?_, fun c => ?_⟩
    · rw [Graph.settleInstr_congr hf]
      exact hset.instr v
    · rw [Graph.settleBranch_congr hf, Graph.branches_withSeal]
      exact hset.branches c
  refine ⟨R', hg, h.carry hd hl hg hseal ?_ hk.entry hk.vars ?_ (fun {c y'} hy' => ?_)
    fun {c} hc => ?_, hl⟩
  · intro o
    rw [Graph.resolve_congr hf, Graph.resolve_congr hf]
    exact hk.resolve o
  · refine Eq.trans ?_ (Graph.blocks_size_congr hk.shape)
    exact Array.size_modify
  · change (u.graph.withSeal b).block? c = some y' at hy'
    unfold Graph.withSeal at hy'
    rw [Graph.block?_updateBlock] at hy'
    by_cases e : b = c
    · rw [if_pos e] at hy'
      obtain ⟨z, hz, rfl⟩ := Option.map_eq_some_iff.1 hy'
      obtain ⟨y, hy, e'⟩ := hk.block_back hz
      rw [← e, Function.update_self]
      exact ⟨rfl, y, e ▸ hy, congrArg Shape.kind e', congrArg Shape.instrs e'⟩
    · rw [if_neg e] at hy'
      obtain ⟨y, hy, e'⟩ := hk.block_back hy'
      obtain ⟨-, g2, -⟩ := h.block hy
      rw [Function.update_of_ne (Ne.symm e)]
      exact ⟨(congrArg Shape.isSealed e').trans g2, y, hy, congrArg Shape.kind e',
        congrArg Shape.instrs e'⟩
  · rw [Function.update_of_ne]
    · exact (h.bare hc).1
    · rintro rfl
      exact absurd (h.index_lt hb) (Nat.not_lt_of_le hc)

/-- Names, origins and counts are no part of the plan. -/
theorem alike (h : Built p s) (ha : s.Alike t) : Built p t ∧ Later p.toDraft s p.toDraft t := by
  have hk : Kept 0 (fun _ => True) s t := Step.kept h.drawn.sane (Nat.zero_le _)
    (.alike ha : Step 0 (fun _ => True) none s none t)
  obtain ⟨hd, hl⟩ := h.drawn.alike ha
  refine ⟨?_, hl⟩
  refine h.carry hd hl (.refl _) (hk.settles h.anchored) hk.resolve hk.entry hk.vars
    (Graph.blocks_size_congr hk.shape) (fun {c y'} hy' => ?_) fun hc => (h.bare hc).1
  obtain ⟨y, hy, e⟩ := hk.block_back hy'
  obtain ⟨-, g2, -⟩ := h.block hy
  exact ⟨(congrArg Shape.isSealed e).trans g2, y, hy, congrArg Shape.kind e,
    congrArg Shape.instrs e⟩

/-! ## 3. Blocks and jumps -/

/-- A change of the graph that leaves values and forwards alone. -/
theorem regraph (h : Built p s) {g : Graph} {n : Nat} {dead : BlockId → Bool}
    {jumps : BlockId → List Branch} (hd : Drawn p.toDraft { s with graph := g })
    (hl : Later p.toDraft s p.toDraft { s with graph := g })
    (hwired : { p with count := n, dead := dead, jumps := jumps : Plan }.Wired)
    (hinstr : ∀ v, g.instr? v = s.graph.instr? v) (hatt : ∀ v, s.graph.Attached v → g.Attached v)
    (hf : g.forwards = s.graph.forwards) (hentry : g.entry = s.graph.entry)
    (hsize : g.blocks.size = n)
    (hblock : ∀ {c y}, g.block? c = some y → y.isUnreachable = dead c ∧ y.isSealed = p.closed c ∧
      y.instrs = p.code c)
    (hn : p.count ≤ n) (hbare : ∀ {c : BlockId}, n ≤ c.index → jumps c = [])
    (hbranches : ∀ c, g.branches c = (jumps c).map s.graph.settleBranch)
    (hconds : ∀ {b br o}, br ∈ jumps b → br.cond = some o → br ∈ p.jumps b ∨ Offers p s b o) :
    Built { p with count := n, dead := dead, jumps := jumps } { s with graph := g } := by
  have hres : g.resolve = s.graph.resolve := funext (Graph.resolve_congr hf)
  have hanch : ∀ {o}, s.graph.Anchors o → g.Anchors o := fun ho w hw => hatt w (ho w hw)
  have hcond : ∀ {b br o}, br ∈ jumps b → br.cond = some o → s.graph.Knows o ∧
      ∀ {T : Type} {m : Meaning T}, Models p.toDraft s m → m.Avail o b := by
    intro b br o hbr hc
    rcases hconds hbr hc with hbr | ho
    · exact h.conds hbr hc
    · exact ⟨ho.anchors.knows, ho.avail⟩
  refine ⟨hd, ⟨fun {v i} hi o ho => ?_, fun {b br o} hbr hc => ?_⟩, hwired, hentry.trans h.entry,
    hsize, hblock, fun {c} hc => ?_, fun v => ?_, fun c => ?_, h.ordered,
    fun {v b ty i} hr o ho => ?_, fun {b br o} hbr hc => ?_, h.typed⟩
  · change g.instr? v = some i at hi
    rw [hinstr] at hi
    exact hanch (h.anchored.instr hi o ho)
  · change br ∈ g.branches b at hbr
    rw [hbranches] at hbr
    obtain ⟨br', hbr', rfl⟩ := List.mem_map.1 hbr
    obtain ⟨o', ho', rfl⟩ := Option.map_eq_some_iff.1 hc
    exact hanch (h.steady.anchors_resolve (hcond hbr' ho').1)
  · obtain ⟨h1, h2, -, h4⟩ := h.bare (Nat.le_trans hn hc)
    exact ⟨h1, h2, hbare hc, h4⟩
  · show g.instr? v = (p.roles.instr? v).map g.settleInstr
    rw [hinstr, Graph.settleInstr_congr hf]
    exact h.instr v
  · show g.branches c = (jumps c).map g.settleBranch
    rw [hbranches, Graph.settleBranch_congr hf]
  · obtain ⟨h1, h2⟩ := h.operands hr o ho
    exact ⟨h1, fun hm => h2 (hl.models hm)⟩
  · obtain ⟨h1, h2⟩ := hcond hbr hc
    exact ⟨h1.mono hl.size, fun hm => h2 (hl.models hm)⟩

/-- **A new block.** -/
theorem addBlock (h : Built p s) (label : String) (kind : BlockKind) :
    Built (p.block (kind == .unreachable)) { s with graph := s.graph.pushBlock label kind } ∧
      Later p.toDraft s p.toDraft { s with graph := s.graph.pushBlock label kind } := by
  obtain ⟨hd, hl⟩ := h.drawn.pushBlock label kind
  have hnext : s.graph.nextBlock = ⟨p.count⟩ := congrArg BlockId.mk h.size
  refine ⟨h.regraph hd hl ⟨h.wired.no_entry, fun {q c} he => ?_⟩ (fun _ => rfl) (fun _ hv => hv) rfl
    rfl ?_ (fun {c y} hy => ?_) (Nat.le_succ _) (fun hc => (h.bare (Nat.le_of_succ_le hc)).2.2.1)
    (fun c => ?_) (fun hbr _ => .inl hbr), hl⟩
  · obtain ⟨h1, h2, h3⟩ := h.wired.source he
    obtain ⟨k1, k2⟩ := h.edge_known he
    exact ⟨h1, (Plan.dead_block_of_lt k1 _).trans h2, (Plan.dead_block_of_lt k2 _).trans h3⟩
  · show (s.graph.blocks.push _).size = p.count + 1
    rw [Array.size_push, h.size]
  · rw [Graph.block?_pushBlock, hnext] at hy
    split at hy
    · rename_i e
      cases hy
      obtain ⟨b1, b2, -⟩ := h.bare (c := c) (by rw [e])
      rw [b1, b2, e, Function.update_self]
      exact ⟨rfl, rfl, rfl⟩
    · rename_i e
      rw [Function.update_of_ne e]
      exact h.block hy
  · rw [Graph.branches_pushBlock]
    exact h.branches c

/-- **A new jump** from a block in which control can be. -/
theorem link (h : Built p s) {q c : BlockId} (hq : p.Reached q) (hlive : p.dead q = false)
    (hc : c.index < p.count) (hlive' : p.dead c = false) (hentry : c ≠ Plan.entry)
    (hopen : p.closed c = false) {cond : Option Operand} (hcond : ∀ o ∈ cond, Offers p s q o) :
    Built (p.link q cond c) { s with graph := s.graph.link q cond c } ∧
      Later p.toDraft s p.toDraft { s with graph := s.graph.link q cond c } := by
  obtain ⟨z, hz⟩ := h.known (h.reached_known hq)
  obtain ⟨y, hy⟩ := h.known hc
  have hys : y.isSealed = false := (h.block hy).2.1.trans hopen
  obtain ⟨hd, hl⟩ := h.drawn.link hz hy (.inl hys) fun o ho => (hcond o ho).anchors.knows
  have hmono : ∀ {b}, p.Reached b → (p.link q cond c).Reached b := fun hb =>
    hb.mono fun _ _ he => Plan.edge_link.2 (.inl he)
  refine ⟨h.regraph hd hl ⟨fun {a} he => ?_, fun {a b} he => ?_⟩ (s.graph.instr?_link q cond c)
    (fun v hv => (s.graph.attached_link q cond c v).2 hv) (s.graph.forwards_link q cond c)
    (s.graph.entry_link q cond c) ?_ (fun {b y'} hy' => ?_) (Nat.le_refl _) (fun {b} hb => ?_)
    (fun b => ?_) fun {b br o} hbr ho => ?_, hl⟩
  · rcases Plan.edge_link.1 he with he | ⟨-, e⟩
    · exact h.wired.no_entry he
    · exact hentry e.symm
  · rcases Plan.edge_link.1 he with he | ⟨rfl, rfl⟩
    · obtain ⟨h1, h2⟩ := h.wired.source he
      exact ⟨hmono h1, h2⟩
    · exact ⟨hmono hq, hlive, hlive'⟩
  · rw [← h.size]
    unfold Graph.link
    rw [Graph.addUses_eq]
    simp [Graph.updateBlock]
  · rw [Graph.block?_link] at hy'
    obtain ⟨x, hx, rfl⟩ := Option.map_eq_some_iff.1 hy'
    obtain ⟨h1, h2, h3⟩ := h.block hx
    have hkeep : (Graph.linkBlock q cond c b x).kind = x.kind ∧
        (Graph.linkBlock q cond c b x).isSealed = x.isSealed ∧
        (Graph.linkBlock q cond c b x).instrs = x.instrs := by
      unfold Graph.linkBlock Block.addPred
      split <;> split <;> (try split) <;> exact ⟨rfl, rfl, rfl⟩
    obtain ⟨k1, k2, k3⟩ := hkeep
    refine ⟨?_, k2.trans h2, k3.trans h3⟩
    rw [← h1]
    unfold Block.isUnreachable
    rw [k1]
  · rw [Function.update_of_ne]
    · exact (h.bare hb).2.2.1
    · rintro rfl
      exact absurd (h.reached_known hq) (Nat.not_lt_of_le hb)
  · rw [Graph.branches_link hz, h.branches]
    by_cases e : q = b
    · subst e
      rw [if_pos rfl, Function.update_self, List.map_append]
      congr 1
      show [(⟨cond, c⟩ : Branch)] = [⟨cond.map s.graph.resolve, c⟩]
      cases cond with
      | none => rfl
      | some o => rw [Option.map_some, h.steady.resolve_of_anchors (hcond o rfl).anchors]
    · rw [if_neg e, Function.update_of_ne (Ne.symm e)]
  · by_cases e : b = q
    · subst e
      rw [Function.update_self] at hbr
      rcases List.mem_append.1 hbr with hbr | hbr
      · exact .inl hbr
      · rw [List.mem_singleton.1 hbr] at ho
        exact .inr (hcond o ho)
    · rw [Function.update_of_ne e] at hbr
      exact .inl hbr

/-- **A block that nothing reaches is marked as dead.** -/
theorem kill (h : Built p s) {b : BlockId} (hin : ∀ q, ¬ p.Edge q b) (hout : p.jumps b = []) :
    Built (p.kill b) { s with graph := s.graph.withDead b } ∧
      Later p.toDraft s p.toDraft { s with graph := s.graph.withDead b } := by
  have hpreds := s.graph.preds_withDead b
  have hsealed := s.graph.isSealed_withDead b
  have hsane : Sane none { s with graph := s.graph.withDead b } := h.drawn.sane.withDead b
  obtain ⟨hd, hl⟩ := h.drawn.regraph hsane rfl (fun _ => rfl) (fun _ => rfl) rfl hsealed
    (fun q c hq => by rw [hpreds]; exact hq) fun {T m} hm => hm.back rfl rfl
      (fun q c hq => by
        show q ∈ Graph.preds _ c
        rw [hpreds]
        exact hq)
      fun c hc => ⟨by
        unfold Graph.Closed
        rw [hsealed]
        exact hc, fun q hq => by
        change q ∈ Graph.preds _ c at hq
        rw [hpreds] at hq
        exact hq⟩
  refine ⟨h.regraph hd hl ⟨h.wired.no_entry, fun {q c} he => ?_⟩ (fun _ => rfl) (fun _ hv => hv) rfl
    rfl ?_ (fun {c y} hy => ?_) (Nat.le_refl _) (fun hc => (h.bare hc).2.2.1)
    (fun c => by rw [Graph.branches_withDead]; exact h.branches c) (fun hbr _ => .inl hbr), hl⟩
  · obtain ⟨h1, h2, h3⟩ := h.wired.source he
    refine ⟨h1, (Function.update_of_ne ?_ _ _).trans h2, (Function.update_of_ne ?_ _ _).trans h3⟩
    · rintro rfl
      obtain ⟨br, hbr, -⟩ := he
      change br ∈ p.jumps q at hbr
      rw [hout] at hbr
      cases hbr
    · rintro rfl
      exact hin q he
  · rw [← h.size]
    exact Array.size_modify
  · rw [Graph.block?_withDead] at hy
    obtain ⟨x, hx, rfl⟩ := Option.map_eq_some_iff.1 hy
    obtain ⟨h1, h2, h3⟩ := h.block hx
    by_cases e : b = c
    · subst e
      rw [if_pos rfl, Function.update_self]
      exact ⟨rfl, h2, h3⟩
    · rw [if_neg e, Function.update_of_ne (Ne.symm e)]
      exact ⟨h1, h2, h3⟩

/-! ## 4. Instructions and writes -/

/-- **A new instruction** at the end of a block. -/
theorem emit (h : Built p s) {b : BlockId} {y : Block} (hb : s.graph.block? b = some y) (ty : Ty)
    (origin : Origin) {i : Instr} (hi : ∀ o ∈ i.operands, Offers p s b o) :
    Built (p.extend b (p.roles.set s.graph.nextValue (.code b ty i)) [s.graph.nextValue])
        { s with graph := s.graph.withInstr b y.instrs.length ty origin i } ∧
      Later p.toDraft s ⟨p.roles.set s.graph.nextValue (.code b ty i), p.writes⟩
        { s with graph := s.graph.withInstr b y.instrs.length ty origin i } := by
  obtain ⟨hd, hl⟩ := h.drawn.withInstr hb y.instrs.length ty origin
    (fun o ho => (hi o ho).anchors.knows) b
  have hf := s.graph.forwards_withInstr b y.instrs.length ty origin i
  have hatt : ∀ {o}, s.graph.Anchors o →
      (s.graph.withInstr b y.instrs.length ty origin i).Anchors o := fun ho w hw =>
    (s.graph.attached_withInstr b y.instrs.length ty origin i w).2 (.inr (ho w hw))
  have hkeep : ∀ {v r}, p.roles v = some r →
      p.roles.set s.graph.nextValue (.code b ty i) v = some r := hl.roles
  refine ⟨⟨hd, ⟨fun {v j} hj o ho => ?_, fun {c br o} hbr hc => ?_⟩,
    ⟨h.wired.no_entry, h.wired.source⟩, (s.graph.entry_withInstr b _ ty origin i).trans h.entry, ?_,
    fun {c x} hx => ?_, fun {c} hc => ?_, fun v => ?_, fun c => ?_, fun c => ?_,
    fun {v c ty' j} hr o ho => ?_, fun hbr hc => ?_, fun {c x o} hw => ?_⟩, hl⟩
  · change (s.graph.withInstr b y.instrs.length ty origin i).instr? v = some j at hj
    rw [Graph.instr?_withInstr] at hj
    split at hj
    · cases hj
      exact hatt (hi o ho).anchors
    · exact hatt (h.anchored.instr hj o ho)
  · change br ∈ (s.graph.withInstr b y.instrs.length ty origin i).branches c at hbr
    rw [Graph.branches_withInstr] at hbr
    exact hatt (h.anchored.cond hbr hc)
  · show (s.graph.withInstr b y.instrs.length ty origin i).blocks.size = p.count
    rw [← h.size]
    unfold Graph.withInstr
    rw [Graph.addUses_eq]
    exact Array.size_modify
  · change (s.graph.withInstr b y.instrs.length ty origin i).block? c = some x at hx
    rw [Graph.block?_withInstr] at hx
    obtain ⟨z, hz, rfl⟩ := Option.map_eq_some_iff.1 hx
    obtain ⟨h1, h2, h3⟩ := h.block hz
    refine ⟨h1, h2, ?_⟩
    by_cases e : b = c
    · subst e
      cases hb.symm.trans hz
      rw [Plan.code_extend_self, ← h3]
      simp
    · rw [Plan.code_extend_of_ne (Ne.symm e), ← h3]
      simp [e]
  · obtain ⟨h1, h2, h3⟩ := h.bare hc
    refine ⟨h1, ?_, h3⟩
    rw [Plan.code_extend_of_ne]
    · exact h2
    · rintro rfl
      exact absurd (h.index_lt hb) (Nat.not_lt_of_le hc)
  · show (s.graph.withInstr b y.instrs.length ty origin i).instr? v = _
    rw [Graph.instr?_withInstr, Graph.settleInstr_congr hf]
    show _ = ((p.roles.set s.graph.nextValue (.code b ty i)).instr? v).map _
    rw [Roles.instr?_set]
    split
    · have hsame : i.operands.map s.graph.resolve = i.operands := by
        refine (List.map_congr_left fun o ho => ?_).trans (List.map_id _)
        exact h.steady.resolve_of_anchors (hi o ho).anchors
      rw [Option.map_some]
      unfold Graph.settleInstr
      rw [hsame]
    · exact h.instr v
  · show (s.graph.withInstr b y.instrs.length ty origin i).branches c = _
    rw [Graph.branches_withInstr, Graph.settleBranch_congr hf]
    exact h.branches c
  · by_cases e : c = b
    · subst e
      rw [Plan.code_extend_self]
      refine List.pairwise_append.2 ⟨h.ordered c, List.pairwise_singleton _ _, fun v hv w hw => ?_⟩
      rw [List.mem_singleton.1 hw]
      exact h.code_index_lt hv
    · rw [Plan.code_extend_of_ne e]
      exact h.ordered c
  · change p.roles.set s.graph.nextValue (.code b ty i) v = some (.code c ty' j) at hr
    by_cases e : v = s.graph.nextValue
    · rw [e, Roles.set_self] at hr
      cases hr
      refine ⟨fun w hw => ?_, fun hm => (hi o ho).avail (hl.models hm)⟩
      rw [e]
      exact (hi o ho).anchors.knows w hw
    · rw [Roles.set_of_ne _ _ e] at hr
      obtain ⟨h1, h2⟩ := h.operands hr o ho
      exact ⟨h1, fun hm => h2 (hl.models hm)⟩
  · obtain ⟨h1, h2⟩ := h.conds hbr hc
    exact ⟨h1.mono hl.size, fun hm => h2 (hl.models hm)⟩
  · obtain ⟨d, hdx, ht⟩ := h.typed hw
    refine ⟨d, hdx, ?_⟩
    show (p.roles.set s.graph.nextValue (.code b ty i)).typeOf s.reaching.vars o = d.ty
    rw [Roles.typeOf_keep hkeep _ (h.roles_knows (h.drawn.writes_known hw)), ht]

/-- **A write** to a block without jumps. -/
theorem write (h : Built p s) {x : VarId} {b : BlockId} {o : Operand} {d : Variable}
    (hb : b.index < p.count) (hj : p.jumps b = [])
    (hx : variableById? s.reaching.vars x = some d) (ho : Offers p s b o)
    (ht : p.roles.typeOf s.reaching.vars o = d.ty) :
    Built (p.write b x o) (s.recorded x b o) ∧
      Later p.toDraft s (p.write b x o).toDraft (s.recorded x b o) := by
  have hnone : ∀ c, b ∉ s.graph.preds c := by
    intro c hc
    obtain ⟨br, hbr, -⟩ := h.mem_preds.1 hc
    rw [hj] at hbr
    cases hbr
  obtain ⟨hd, hl⟩ := h.drawn.write (x := x) hnone ho.anchors.knows ho.avail
  refine ⟨⟨hd, h.anchored, ⟨h.wired.no_entry, h.wired.source⟩, h.entry, h.size, h.block,
    fun {c} hc => ?_, h.instr, h.branches, h.ordered, fun hr a ha => ?_, fun hbr hc => ?_,
    fun {c z a} hw => ?_⟩, hl⟩
  · obtain ⟨h1, h2, h3, h4⟩ := h.bare hc
    refine ⟨h1, h2, h3, fun z => ?_⟩
    show p.writes.set b x o c z = none
    unfold Writes.set
    rw [if_neg]
    · exact h4 z
    · rintro ⟨rfl, -⟩
      exact absurd hb (Nat.not_lt_of_le hc)
  · obtain ⟨h1, h2⟩ := h.operands hr a ha
    exact ⟨h1, fun hm => h2 (hl.models hm)⟩
  · obtain ⟨h1, h2⟩ := h.conds hbr hc
    exact ⟨h1, fun hm => h2 (hl.models hm)⟩
  · change p.writes.set b x o c z = some a at hw
    unfold Writes.set at hw
    split at hw
    · rename_i e
      cases hw
      rw [e.2]
      exact ⟨d, hx, ht⟩
    · exact h.typed hw

end Built

end BitFlow
