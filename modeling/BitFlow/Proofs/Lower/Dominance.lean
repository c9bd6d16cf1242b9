import BitFlow.Proofs.Graph.Owner
import BitFlow.Proofs.Lower.Program

/-!
# Definitions come before uses

What an instruction, a condition or a phi refers to is there when it is asked for: control can come
to the use only by way of the block that defines the value, and inside a block the definition stands
before the use.

Main statement: `Program.definedBeforeUse_lower`.
-/

namespace BitFlow

namespace Graph

/-! ## 1. Definitions and uses -/

/-- **Definitions come before uses**, wherever control can be. An operand is defined in a block that
    dominates the use, and if that is the block itself by a phi or earlier in the list of
    instructions; the operand of a phi is defined in a block that dominates the predecessor from
    which it is taken. -/
structure DefinedBeforeUse (g : Graph) : Prop where
  instrs : ∀ {b y v x u}, g.Reached b → g.block? b = some y → v ∈ y.instrs →
    g.value? v = some x → .value u ∈ x.operands →
      ∃ a, g.Owns a u ∧ g.Dominates a b ∧
        (a = b → u ∈ y.phis ∨ ∃ l₁ l₂ l₃, y.instrs = l₁ ++ u :: (l₂ ++ v :: l₃))
  conds : ∀ {b y br u}, g.Reached b → g.block? b = some y → br ∈ y.branches →
    br.cond = some (.value u) → ∃ a, g.Owns a u ∧ g.Dominates a b
  phis : ∀ {b y v x q u c}, g.Reached b → g.block? b = some y → v ∈ y.phis →
    g.value? v = some x → x.kind = .phi q → (.value u, c) ∈ q.incoming →
      ∃ a, g.Owns a u ∧ g.Dominates a c

theorem instr?_of_mem {g : Graph} (h : g.Orderly) {b : BlockId} {y : Block} {v : ValueId} {x : Value}
    (hb : g.block? b = some y) (hv : v ∈ y.instrs) (hx : g.value? v = some x) :
    ∃ i, g.instr? v = some ⟨b, x.ty, i⟩ ∧ x.operands = i.operands := by
  obtain ⟨x', hx', hxb, hphi⟩ := (h.mem_instrs hb v).1 hv
  cases hx.symm.trans hx'
  cases hk : x.kind with
  | instr i =>
    refine ⟨i, instr?_eq_some.2 ⟨x, hx, hxb, rfl, hk⟩, ?_⟩
    unfold Value.operands
    rw [hk]
  | phi q =>
    unfold Value.isPhi at hphi
    rw [hk] at hphi
    cases hphi

end Graph

/-! ## 2. Graphs that are built to a plan -/

namespace Built

variable {p : Plan} {s : Tracked}

/-- What is available in a block is defined in a block that dominates it. -/
theorem dominates (h : Built p s) {o : Operand} {b : BlockId}
    (ho : (p.types s.reaching.vars).Avail o b) (ha : s.graph.Anchors o) {u : ValueId}
    (hu : o = .value u) :
    s.graph.Owns ((p.types s.reaching.vars).home u) u ∧
      s.graph.Dominates ((p.types s.reaching.vars).home u) b := by
  have hm := h.models_types
  constructor
  · rcases Graph.attached_iff.1 (ha u hu) with ⟨q, hq⟩ | ⟨i, hi⟩
    · rw [(hm.phi (h.drawn.covers.phi hq)).home]
      obtain ⟨x, hx, hxb, -⟩ := Graph.phi?_eq_some.1 hq
      exact ⟨x, hx, hxb⟩
    · obtain ⟨j, hj, rfl⟩ := Option.map_eq_some_iff.1 ((h.instr u).symm.trans hi)
      rw [hm.code (Roles.instr?_eq_some.1 hj)]
      obtain ⟨x, hx, hxb, -⟩ := Graph.instr?_eq_some.1 hi
      exact ⟨x, hx, hxb⟩
  · intro π hπ
    refine ho u hu π ?_
    have hroute : Trail s.graph.entry p.Edge (b :: π) := hπ.mono fun q c he => h.edge_iff.1 he
    rw [h.entry] at hroute
    exact hroute

/-- The operands of instructions. -/
theorem dominates_instr (h : Built p s) {b : BlockId} {y : Block} {v u : ValueId} {x : Value}
    (hreach : s.graph.Reached b) (hb : s.graph.block? b = some y) (hv : v ∈ y.instrs)
    (hx : s.graph.value? v = some x) (hu : .value u ∈ x.operands) :
    ∃ a, s.graph.Owns a u ∧ s.graph.Dominates a b ∧
      (a = b → u ∈ y.phis ∨ ∃ l₁ l₂ l₃, y.instrs = l₁ ++ u :: (l₂ ++ v :: l₃)) := by
  obtain ⟨i, hi, hops⟩ := Graph.instr?_of_mem h.orderly hb hv hx
  rw [hops] at hu
  obtain ⟨⟨b', ty, j⟩, hj, e⟩ := Option.map_eq_some_iff.1 ((h.instr v).symm.trans hi)
  cases e
  have hrole := Roles.instr?_eq_some.1 hj
  -- the operand as it was given, and what it stands for now
  obtain ⟨o, ho, hres⟩ := List.mem_map.1 hu
  obtain ⟨holder, havail⟩ := h.operands hrole o ho
  have hm := h.models_types
  obtain ⟨hav, -, hplace⟩ := (h.drawn.sound hm).resolve h.steady (havail hm)
  have hknown : s.graph.Knows o := fun w hw =>
    Nat.lt_trans (holder w hw) (h.drawn.covers.known hrole)
  obtain ⟨hown, hdom⟩ := h.dominates hav (h.steady.anchors_resolve hknown) hres
  refine ⟨_, hown, hdom, fun he => ?_⟩
  obtain ⟨π, hπ⟩ := h.reached_iff.1 hreach
  rcases hplace with hsame | haway
  · -- the operand was given so, and is older than the instruction
    have hlt := holder u (hsame.symm.trans hres)
    obtain ⟨z, hz, hzb⟩ := hown
    rw [he] at hzb
    cases hphi : z.isPhi with
    | true => exact .inl ((h.orderly.mem_phis hb u).2 ⟨z, hz, hzb, hphi⟩)
    | false =>
      have hmem := (h.orderly.mem_instrs hb u).2 ⟨z, hz, hzb, hphi⟩
      refine .inr (exists_split_of_pairwise ?_ hmem hv hlt)
      rw [(h.block hb).2.2]
      exact h.ordered _
  · exact absurd he (haway u π hres hπ)

/-- **Definitions come before uses** in a graph that is built to a plan. -/
theorem definedBeforeUse (h : Built p s) : s.graph.DefinedBeforeUse where
  instrs := h.dominates_instr
  conds := fun {b y br u} _ hb hbr hc => by
    have hbranch : br ∈ s.graph.branches b := by
      rw [Graph.branches_of_block? hb]
      exact hbr
    have hm := h.models_types
    have hmem := hbranch
    rw [h.branches] at hmem
    obtain ⟨br', hbr', rfl⟩ := List.mem_map.1 hmem
    obtain ⟨o, ho, hres⟩ := Option.map_eq_some_iff.1 hc
    obtain ⟨hav, -, -⟩ := (h.drawn.sound hm).resolve h.steady ((h.conds hbr' ho).2 hm)
    obtain ⟨hown, hdom⟩ := h.dominates hav (h.anchored.cond hbranch (hc.trans
      (congrArg some hres.symm))) hres
    exact ⟨_, hown, hdom⟩
  phis := fun {b y v x q u c} _ hb hv hx hk hu => by
    obtain ⟨x', hx', hxb, -⟩ := (h.orderly.mem_phis hb v).1 hv
    cases hx.symm.trans hx'
    have hphi : s.graph.phi? v = some ⟨b, x.ty, q.var, q.incoming⟩ :=
      Graph.phi?_eq_some.2 ⟨x, hx, hxb, rfl, hk⟩
    obtain ⟨hav, -⟩ := (h.drawn.sound h.models_types).incoming hphi hu
    obtain ⟨hown, hdom⟩ := h.dominates hav
      (h.steady.phi_anchors hphi _ (List.mem_map.2 ⟨_, hu, rfl⟩)) rfl
    exact ⟨_, hown, hdom⟩

end Built

/-! ## 3. Programs -/

/-- **In the graph of a program definitions come before uses.** -/
theorem Program.definedBeforeUse_lower {p : Program} {s : Settings} {r : Lowered}
    (h : p.lower s = .ok r) : r.graph.DefinedBeforeUse := by
  obtain ⟨b, l, run, rfl⟩ := run_of_lower h
  obtain ⟨p₁, l₁, p₂, l₂, hmade, rfl⟩ :=
    Ends.of_ok (Lower.ends_program (T := False) .zero s False.elim False.elim) run
  have hd := hmade.ends.built.definedBeforeUse
  exact ⟨hd.instrs, hd.conds, hd.phis⟩

/-- The loop of `doubling` refers to values from before it and to its own. -/
theorem Program.definedBeforeUse_lower_doubling :
    ∃ r, doubling.lower Preset.fast.settings = .ok r ∧ r.graph.DefinedBeforeUse := by
  obtain ⟨r, hr, -⟩ := lower_doubling
  exact ⟨r, hr, definedBeforeUse_lower hr⟩

end BitFlow
