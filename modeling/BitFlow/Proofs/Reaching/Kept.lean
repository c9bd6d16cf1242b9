import BitFlow.Proofs.Reaching.Step

/-!
# What reading and sealing leave alone

`Kept` says what a chain of steps does not change: the shape of the blocks, the declarations, what
is recorded up to later removals, the instructions, and the phis below the floor of the chain.

Main statements: `Step.kept`, `Steps.kept` -- one step and a chain of steps; `Steps.apart` -- who
refers to values above the floor stays above it.
-/

namespace BitFlow

/-! ## 1. Instructions and conditions -/

/-- Of two members of an ascending list the smaller one stands before the other. -/
theorem exists_split_of_pairwise {vs : List ValueId} (h : vs.Pairwise fun v w => v.index < w.index)
    {u v : ValueId} (hu : u ∈ vs) (hv : v ∈ vs) (hlt : u.index < v.index) :
    ∃ l₁ l₂ l₃, vs = l₁ ++ u :: (l₂ ++ v :: l₃) := by
  obtain ⟨l₁, r, rfl⟩ := List.append_of_mem hu
  rcases List.mem_append.1 hv with hv | hv
  · -- what stands before `u` is smaller
    have := (List.pairwise_append.1 h).2.2 v hv u List.mem_cons_self
    omega
  · rcases List.mem_cons.1 hv with rfl | hv
    · exact absurd hlt (Nat.lt_irrefl _)
    · obtain ⟨l₂, l₃, rfl⟩ := List.append_of_mem hv
      exact ⟨l₁, l₂, l₃, rfl⟩

namespace Graph

/-- The instructions of a block. -/
def instrs (g : Graph) (b : BlockId) : List ValueId := ((g.block? b).map Block.instrs).getD []

/-- The branches of a block. -/
def branches (g : Graph) (b : BlockId) : List Branch := ((g.block? b).map Block.branches).getD []

theorem branches_of_block? {g : Graph} {b : BlockId} {y : Block} (h : g.block? b = some y) :
    g.branches b = y.branches := by
  unfold branches
  rw [h]
  rfl

theorem mem_branches {g : Graph} {b : BlockId} {br : Branch} :
    br ∈ g.branches b ↔ ∃ y, g.block? b = some y ∧ br ∈ y.branches := by
  unfold branches
  cases g.block? b with
  | none => exact ⟨fun h => (by cases h), fun ⟨_, h, _⟩ => (by cases h)⟩
  | some y => exact ⟨fun h => ⟨y, rfl, h⟩, fun ⟨_, h, hbr⟩ => (by cases h; exact hbr)⟩

/-- The operands of instructions and conditions are attached. -/
structure Anchored (g : Graph) : Prop where
  instr : ∀ {v i}, g.instr? v = some i → ∀ o ∈ i.instr.operands, g.Anchors o
  cond : ∀ {b br o}, br ∈ g.branches b → br.cond = some o → g.Anchors o

theorem Anchored.fresh (name : String) : (Graph.fresh name).Anchored := by
  refine ⟨fun h => (by cases h), fun {b br o} h => ?_⟩
  obtain ⟨_ | n⟩ := b
  · cases h
  · cases h

/-- An instruction with its operands as they stand now. -/
def settleInstr (g : Graph) (i : OwnedInstr) : OwnedInstr :=
  { i with instr := { i.instr with operands := i.instr.operands.map g.resolve } }

/-- A branch with its condition as it stands now. -/
def settleBranch (g : Graph) (br : Branch) : Branch := { br with cond := br.cond.map g.resolve }

theorem settleInstr_congr {g g' : Graph} (h : g'.forwards = g.forwards) :
    g'.settleInstr = g.settleInstr := by
  unfold settleInstr
  rw [funext (resolve_congr h)]

theorem settleBranch_congr {g g' : Graph} (h : g'.forwards = g.forwards) :
    g'.settleBranch = g.settleBranch := by
  unfold settleBranch
  rw [funext (resolve_congr h)]

/-- Instructions and branches of `g'` are those of `g`, settled. -/
structure Settles (g g' : Graph) : Prop where
  instr : ∀ v, g'.instr? v = (g.instr? v).map g'.settleInstr
  branches : ∀ b, g'.branches b = (g.branches b).map g'.settleBranch

/-- Where nothing was removed and nothing is stale, settling changes nothing. -/
theorem Settles.of_eq {g g' : Graph} (hg : g.Steady) (ha : g.Anchored)
    (hf : g'.forwards = g.forwards) (hi : ∀ v, g'.instr? v = g.instr? v)
    (hb : ∀ b, g'.branches b = g.branches b) : Settles g g' := by
  have hres : ∀ {o}, g.Anchors o → g'.resolve o = o := by
    intro o ho
    rw [resolve_congr hf, hg.resolve_of_anchors ho]
  refine ⟨fun v => ?_, fun b => ?_⟩
  · rw [hi]
    cases hv : g.instr? v with
    | none => rfl
    | some i =>
      have hops : i.instr.operands.map g'.resolve = i.instr.operands :=
        (List.map_congr_left fun o ho => hres (ha.instr hv o ho)).trans (List.map_id _)
      rw [Option.map_some]
      unfold settleInstr
      rw [hops]
  · rw [hb]
    refine ((List.map_congr_left fun br hbr => ?_).trans (List.map_id _)).symm
    rcases hc : br with ⟨_ | o, t⟩
    · rfl
    · have ho := ha.cond hbr (o := o) (by rw [hc])
      show (⟨some (g'.resolve o), t⟩ : Branch) = ⟨some o, t⟩
      rw [hres ho]

theorem branches_withPhi (g : Graph) (b : BlockId) (x : VarId) (ty : Ty) (c : BlockId) :
    (g.withPhi b x ty).branches c = g.branches c := by
  unfold branches
  rw [block?_withPhi, Option.map_map]
  rfl

theorem branches_withIncoming (g : Graph) (v : ValueId) (phi : Phi) (o : Operand) (q c : BlockId) :
    (g.withIncoming v phi o q).branches c = g.branches c := by
  unfold branches
  rw [block?_withIncoming]

theorem Alike.branches {g g' : Graph} (h : g.Alike g') (b : BlockId) :
    g'.branches b = g.branches b := by
  unfold Graph.branches
  rw [h.block?]

theorem Retired.branches {v : ValueId} {o : Operand} {g g' : Graph} (h : Retired v o g g')
    (b : BlockId) : g'.branches b = (g.branches b).map fun br =>
      { br with cond := br.cond.map (Operand.replace (.value v) o) } := by
  unfold Graph.branches
  rw [h.block]
  cases g.block? b with
  | none => rfl
  | some y => rfl

/-- Retiring a phi settles instructions and branches. -/
theorem Retired.settles {v : ValueId} {o : Operand} {g g' : Graph} (h : Retired v o g g')
    (hg : g.Steady) (hg' : g'.Steady) (ha : g.Anchored) (hv : (g.phi? v).isSome = true) :
    Settles g g' := by
  have hatt : g.Attached v := by
    obtain ⟨p, hp⟩ := Option.isSome_iff_exists.1 hv
    exact attached_of_phi? hp
  have hres : ∀ {a}, g.Anchors a → Operand.replace (.value v) o a = g'.resolve a := by
    intro a haa
    rw [h.resolve hg.forwarding hg'.forwarding hatt, hg.resolve_of_anchors haa]
  refine ⟨fun w => ?_, fun b => ?_⟩
  · rw [h.instr? hv]
    cases hw : g.instr? w with
    | none => rfl
    | some i =>
      have hops : i.instr.operands.map (Operand.replace (.value v) o) =
          i.instr.operands.map g'.resolve :=
        List.map_congr_left fun a hm => hres (ha.instr hw a hm)
      rw [Option.map_some, Option.map_some]
      unfold OwnedInstr.replace settleInstr
      rw [hops]
  · rw [h.branches]
    refine List.map_congr_left fun br hbr => ?_
    rcases hc : br with ⟨_ | a, t⟩
    · rfl
    · have haa := ha.cond hbr (o := a) (by rw [hc])
      show (⟨some (Operand.replace (.value v) o a), t⟩ : Branch) = ⟨some (g'.resolve a), t⟩
      rw [hres haa]

/-- What is settled refers to attached values. -/
theorem Settles.anchored {g g' : Graph} (h : Settles g g') (hg' : g'.Steady)
    (hs : g.values.size ≤ g'.values.size) (ha : g.Anchored) : g'.Anchored := by
  refine ⟨fun {v i} hv o ho => ?_, fun {b br o} hbr hc => ?_⟩
  · rw [h.instr] at hv
    obtain ⟨i₀, hi₀, rfl⟩ := Option.map_eq_some_iff.1 hv
    obtain ⟨o₀, ho₀, rfl⟩ := List.mem_map.1 ho
    exact hg'.anchors_resolve ((ha.instr hi₀ o₀ ho₀).knows.mono hs)
  · rw [h.branches] at hbr
    obtain ⟨br₀, hbr₀, rfl⟩ := List.mem_map.1 hbr
    obtain ⟨o₀, ho₀, rfl⟩ := Option.map_eq_some_iff.1 hc
    exact hg'.anchors_resolve ((ha.cond hbr₀ ho₀).knows.mono hs)

theorem Settles.trans {g g' g'' : Graph} (h : Settles g g') (h' : Settles g' g'')
    (hr : ∀ o, g''.resolve (g'.resolve o) = g''.resolve o) : Settles g g'' := by
  refine ⟨fun v => ?_, fun b => ?_⟩
  · rw [h'.instr, h.instr, Option.map_map]
    congr 1
    funext i
    simp [settleInstr, Function.comp_def, hr]
  · rw [h'.branches, h.branches, List.map_map]
    congr 1
    funext br
    simp [settleBranch, Function.comp_def, hr]

end Graph

/-! ## 2. The frame of a chain of steps -/

/-- **What steps above `floor` leave alone.** -/
structure Kept (floor : Nat) (scope : VarId → Prop) (s t : Tracked) : Prop where
  shape : ∀ b, t.graph.shape b = s.graph.shape b
  entry : t.graph.entry = s.graph.entry
  size : s.graph.values.size ≤ t.graph.values.size
  forwards : s.graph.forwards.pairs.length ≤ t.graph.forwards.pairs.length
  vars : t.reaching.vars = s.reaching.vars
  resolve : ∀ o, t.graph.resolve (s.graph.resolve o) = t.graph.resolve o
  reached : ∀ {x b o}, s.reached x b = some o → t.reached x b = some (t.graph.resolve o)
  through : ∀ {x b q}, s.graph.isSealed b = true → s.graph.preds b = [q] →
    s.reaching.defs.get? (b, x) = none → t.reaching.defs.get? (b, x) ≠ none →
      t.reached x b = t.reached x q
  phi : ∀ {v p}, v.index < floor → s.graph.phi? v = some p → ∃ p', t.graph.phi? v = some p' ∧
    p'.block = p.block ∧ p'.var = p.var ∧ p'.ty = p.ty ∧ p'.sources = p.sources
  filling : ∀ {v}, v.index < floor → (v ∈ t.reaching.filling ↔ v ∈ s.reaching.filling)
  waits : ∀ {b x v}, v.index < floor → (x, v) ∈ s.reaching.pending.image b →
    (x, v) ∈ t.reaching.pending.image b
  waits_new : ∀ {b x v}, (x, v) ∈ t.reaching.pending.image b →
    (x, v) ∈ s.reaching.pending.image b ∨ (scope x ∧ s.reaching.defs.get? (b, x) = none)
  instr_home : ∀ v, (t.graph.instr? v).map (fun i => (i.block, i.ty)) =
    (s.graph.instr? v).map fun i => (i.block, i.ty)
  settles : s.graph.Anchored → s.graph.Settles t.graph

namespace Kept

variable {floor : Nat} {scope : VarId → Prop} {s t u : Tracked}

theorem trans (h : Kept floor scope s t) (h' : Kept floor scope t u) (ht : t.graph.Steady) :
    Kept floor scope s u := by
  have hres : ∀ o, u.graph.resolve (s.graph.resolve o) = u.graph.resolve o := by
    intro o
    rw [← h'.resolve, h.resolve, h'.resolve]
  refine ⟨fun b => (h'.shape b).trans (h.shape b), h'.entry.trans h.entry, Nat.le_trans h.size h'.size,
    Nat.le_trans h.forwards h'.forwards, h'.vars.trans h.vars, hres, fun {x b o} ho => ?_,
    fun {x b q} hs hp hn hu => ?_, fun {v p} hv hp => ?_,
    fun {v} hv => (h'.filling hv).trans (h.filling hv),
    fun {b x v} hv hm => h'.waits hv (h.waits hv hm), fun {b x v} hm => ?_,
    fun v => (h'.instr_home v).trans (h.instr_home v), fun ha => ?_⟩
  · rw [h'.reached (h.reached ho), h'.resolve]
  · cases hd : t.reaching.defs.get? (b, x) with
    | none =>
      refine h'.through ?_ ?_ hd hu
      · rw [Graph.isSealed_congr (h.shape b), hs]
      · rw [Graph.preds_congr (h.shape b), hp]
    | some o =>
      -- recorded on the way, and then both places stayed in step
      have hb : t.reached x b = some (t.graph.resolve o) := by
        unfold Tracked.reached
        rw [hd]
        rfl
      have hq := h.through hs hp hn (by rw [hd]; exact Option.some_ne_none o)
      rw [h'.reached hb, h'.reached (hq ▸ hb)]
  · obtain ⟨p', hp', e1, e2, e3, e4⟩ := h.phi hv hp
    obtain ⟨p'', hp'', f1, f2, f3, f4⟩ := h'.phi hv hp'
    exact ⟨p'', hp'', f1.trans e1, f2.trans e2, f3.trans e3, f4.trans e4⟩
  · rcases h'.waits_new hm with hm | ⟨hx, hn⟩
    · exact h.waits_new hm
    · refine .inr ⟨hx, ?_⟩
      -- what is recorded stays recorded
      cases hd : s.reaching.defs.get? (b, x) with
      | none => rfl
      | some o =>
        have : s.reached x b = some (s.graph.resolve o) := by
          unfold Tracked.reached
          rw [hd]
          rfl
        have := h.reached this
        unfold Tracked.reached at this
        rw [hn] at this
        cases this
  · have hs := h.settles ha
    exact hs.trans (h'.settles (hs.anchored ht h.size ha)) h'.resolve

/-- What was attached below the floor still is. -/
theorem attached (h : Kept floor scope s t) {v : ValueId} (hv : v.index < floor)
    (ha : s.graph.Attached v) : t.graph.Attached v := by
  rcases Graph.attached_iff.1 ha with ⟨p, hp⟩ | ⟨i, hi⟩
  · obtain ⟨p', hp', -⟩ := h.phi hv hp
    exact Graph.attached_of_phi? hp'
  · have := h.instr_home v
    rw [hi, Option.map_some] at this
    obtain ⟨i', hi', -⟩ := Option.map_eq_some_iff.1 this
    exact Graph.attached_of_instr? hi'

theorem anchors (h : Kept floor scope s t) (hf : s.graph.values.size ≤ floor) {o : Operand}
    (ho : s.graph.Anchors o) : t.graph.Anchors o :=
  fun w hw => h.attached (Nat.lt_of_lt_of_le (ho w hw).index_lt hf) (ho w hw)

theorem preds (h : Kept floor scope s t) (b : BlockId) : t.graph.preds b = s.graph.preds b :=
  Graph.preds_congr (h.shape b)

theorem isSealed (h : Kept floor scope s t) (b : BlockId) :
    t.graph.isSealed b = s.graph.isSealed b := Graph.isSealed_congr (h.shape b)

theorem block (h : Kept floor scope s t) {b : BlockId} {y : Block}
    (hb : s.graph.block? b = some y) :
    ∃ y', t.graph.block? b = some y' ∧ y'.shape = y.shape := by
  have := h.shape b
  unfold Graph.shape at this
  rw [hb, Option.map_some] at this
  exact Option.map_eq_some_iff.1 this

theorem block_back (h : Kept floor scope s t) {b : BlockId} {y : Block}
    (hb : t.graph.block? b = some y) :
    ∃ y', s.graph.block? b = some y' ∧ y.shape = y'.shape := by
  have := h.shape b
  unfold Graph.shape at this
  rw [hb, Option.map_some] at this
  obtain ⟨y', hy', e⟩ := Option.map_eq_some_iff.1 this.symm
  exact ⟨y', hy', e.symm⟩

theorem recorded (h : Kept floor scope s t) {x : VarId} {b : BlockId}
    (hn : s.reaching.defs.get? (b, x) ≠ none) : t.reaching.defs.get? (b, x) ≠ none := by
  cases hd : s.reaching.defs.get? (b, x) with
  | none => exact absurd hd hn
  | some o =>
    have hr : s.reached x b = some (s.graph.resolve o) := by
      unfold Tracked.reached
      rw [hd]
      rfl
    intro hc
    have := h.reached hr
    unfold Tracked.reached at this
    rw [hc] at this
    cases this

end Kept

/-! ## 3. Each step -/

namespace Step

variable {floor : Nat} {scope : VarId → Prop} {closing : Option BlockId} {s t : Tracked}
  {new : Option NewPhi}

/-- A step that removes nothing, told by what it does to phis, tables and definitions. -/
theorem kept_of_same (h : Sane closing s) (hshape : ∀ b, t.graph.shape b = s.graph.shape b)
    (hbranches : ∀ b, t.graph.branches b = s.graph.branches b)
    (hentry : t.graph.entry = s.graph.entry) (hsize : s.graph.values.size ≤ t.graph.values.size)
    (hforwards : t.graph.forwards = s.graph.forwards)
    (hinstr : ∀ v, t.graph.instr? v = s.graph.instr? v)
    (hvars : t.reaching.vars = s.reaching.vars)
    (hreached : ∀ {x b o}, s.reached x b = some o → t.reached x b = some o)
    (hthrough : ∀ {x b q}, s.graph.isSealed b = true → s.graph.preds b = [q] →
      s.reaching.defs.get? (b, x) = none → t.reaching.defs.get? (b, x) ≠ none →
        t.reached x b = t.reached x q)
    (hphi : ∀ {v p}, v.index < floor → s.graph.phi? v = some p → ∃ p', t.graph.phi? v = some p' ∧
      p'.block = p.block ∧ p'.var = p.var ∧ p'.ty = p.ty ∧ p'.sources = p.sources)
    (hfilling : ∀ {v}, v.index < floor → (v ∈ t.reaching.filling ↔ v ∈ s.reaching.filling))
    (hwaits : ∀ {b x v}, v.index < floor → (x, v) ∈ s.reaching.pending.image b →
      (x, v) ∈ t.reaching.pending.image b)
    (hnew : ∀ {b x v}, (x, v) ∈ t.reaching.pending.image b →
      (x, v) ∈ s.reaching.pending.image b ∨ (scope x ∧ s.reaching.defs.get? (b, x) = none)) :
    Kept floor scope s t := by
  have hres := Graph.resolve_congr hforwards
  refine ⟨hshape, hentry, hsize, Nat.le_of_eq (by rw [hforwards]), hvars, fun o => ?_,
    fun {x b o} ho => ?_, hthrough, hphi, hfilling, hwaits, hnew, fun v => by rw [hinstr],
    fun ha => Graph.Settles.of_eq h.steady ha hforwards hinstr hbranches⟩
  · rw [hres, hres, h.steady.forwarding.resolve_resolve]
  · rw [hreached ho, hres, h.steady.resolve_of_anchors (h.anchors_reached ho)]

/-- Recording an operand where nothing was recorded, or what is recorded there already. -/
theorem reached_record {g : Graph} {r : Reaching} {x y : VarId} {b c : BlockId} {o a : Operand}
    (hg : g.Steady) (ho : g.Anchors o)
    (h : r.defs.get? (b, x) = none ∨ (r.defs.get? (b, x)).map g.resolve = some o)
    (ha : (r.defs.get? (c, y)).map g.resolve = some a) :
    ((r.record x b o).defs.get? (c, y)).map g.resolve = some a := by
  rw [Reaching.get?_record]
  by_cases e : (b, x) = (c, y)
  · rw [if_pos e, Option.map_some, hg.resolve_of_anchors ho]
    rw [← e] at ha
    rcases h with h | h
    · rw [h] at ha
      cases ha
    · rw [h] at ha
      exact ha
  · rw [if_neg e]
    exact ha

/-- A new phi is recorded in its block. -/
theorem kept_of_new (h : Sane closing s) (hf : floor ≤ s.graph.values.size) {b : BlockId}
    {x : VarId} {ty : Ty} (hn : s.reaching.defs.get? (b, x) = none)
    (hb : ¬ (s.graph.isSealed b = true ∧ (s.graph.preds b).length = 1))
    (hg : t.graph = s.graph.withPhi b x ty) (hvars : t.reaching.vars = s.reaching.vars)
    (hdefs : t.reaching.defs = (s.reaching.record x b (.value s.graph.nextValue)).defs)
    (hfilling : ∀ {v}, v ≠ s.graph.nextValue → (v ∈ t.reaching.filling ↔ v ∈ s.reaching.filling))
    (hwaits : ∀ {c z v}, (z, v) ∈ s.reaching.pending.image c → (z, v) ∈ t.reaching.pending.image c)
    (hnew : ∀ {c z v}, (z, v) ∈ t.reaching.pending.image c →
      (z, v) ∈ s.reaching.pending.image c ∨ (scope z ∧ s.reaching.defs.get? (c, z) = none)) :
    Kept floor scope s t := by
  refine kept_of_same h (fun c => ?_) (fun c => ?_) ?_ ?_ ?_ (fun v => ?_) hvars
    (fun {z c o} ho => ?_) (fun {z c q} hs hp hd ht => ?_) (fun {v p} hv hp => ?_)
    (fun {v} hv => hfilling ?_) (fun _ hm => hwaits hm) hnew
  · rw [hg, Graph.shape_withPhi]
  · rw [hg, Graph.branches_withPhi]
  · rw [hg]
    rfl
  · rw [hg, Graph.size_withPhi]
    exact Nat.le_succ _
  · rw [hg]
    rfl
  · rw [hg, Graph.instr?_withPhi]
  · have hres : (s.graph.withPhi b x ty).resolve = s.graph.resolve :=
      funext (Graph.resolve_congr rfl)
    unfold Tracked.reached at ho ⊢
    rw [hdefs, Reaching.get?_record, hg, hres]
    by_cases e : (b, x) = (c, z)
    · rw [← e, hn] at ho
      cases ho
    · rw [if_neg e]
      exact ho
  · rw [hdefs, Reaching.get?_record] at ht
    by_cases e : (b, x) = (c, z)
    · obtain ⟨rfl, rfl⟩ := Prod.mk.inj e
      exact absurd ⟨hs, by rw [hp]; rfl⟩ hb
    · rw [if_neg e] at ht
      exact absurd hd ht
  · refine ⟨p, ?_, rfl, rfl, rfl, rfl⟩
    rw [hg, Graph.phi?_withPhi, if_neg (Sane.phi?_ne_next hp), hp]
  · rintro rfl
    exact absurd hf (Nat.not_le_of_lt hv)

theorem kept_opened (h : Sane closing s) (hf : floor ≤ s.graph.values.size) {b : BlockId}
    {x : VarId} {ty : Ty} (hn : s.reaching.defs.get? (b, x) = none)
    (hp : 2 ≤ (s.graph.preds b).length) : Kept floor scope s (s.opened b x ty) := by
  refine kept_of_new h hf hn (fun hc => by omega) rfl rfl rfl (fun {v} hv => ?_)
    (fun hm => hm) fun hm => .inl hm
  show v ∈ s.graph.nextValue :: s.reaching.filling ↔ _
  rw [List.mem_cons]
  exact ⟨fun hc => hc.resolve_left hv, .inr⟩

theorem kept_awaited (h : Sane closing s) (hf : floor ≤ s.graph.values.size) {b : BlockId}
    {x : VarId} {ty : Ty} (hx : scope x) (hn : s.reaching.defs.get? (b, x) = none)
    (hs : s.graph.isSealed b = false) : Kept floor scope s (s.awaited b x ty) := by
  have himage : ∀ {c z v}, (z, v) ∈ (s.awaited b x ty).reaching.pending.image c ↔
      (b = c ∧ (z, v) = (x, s.graph.nextValue)) ∨ (z, v) ∈ s.reaching.pending.image c :=
    fun {c z v} => Multimap.mem_image_add _ _ _ _ _
  refine kept_of_new h hf hn (fun hc => by simp [hs] at hc) rfl rfl rfl
    (fun _ => Iff.rfl) (fun hm => himage.2 (.inr hm)) fun hm => ?_
  rcases himage.1 hm with ⟨rfl, e⟩ | hm
  · obtain ⟨rfl, -⟩ := Prod.mk.inj e
    exact .inr ⟨hx, hn⟩
  · exact .inl hm

theorem kept_started (h : Sane closing s) {b : BlockId} {x : VarId} {v : ValueId}
    (hv : floor ≤ v.index) : Kept floor scope s (s.started b x v) := by
  have himage : ∀ {c z w}, (z, w) ∈ (s.started b x v).reaching.pending.image c ↔
      (z, w) ∈ s.reaching.pending.image c ∧ ¬ (b = c ∧ (z, w) = (x, v)) :=
    fun {c z w} => Multimap.mem_image_remove _ _ _ _ _
  refine kept_of_same h (fun _ => rfl) (fun _ => rfl) rfl (Nat.le_refl _) rfl (fun _ => rfl) rfl
    (fun ho => ho) (fun _ _ hd ht => absurd hd ht) (fun _ hp => ⟨_, hp, rfl, rfl, rfl, rfl⟩)
    (fun {w} hw => ?_)
    (fun {c z w} hw hm => himage.2 ⟨hm, fun hc => ?_⟩) fun hm => .inl (himage.1 hm).1
  · show w ∈ v :: s.reaching.filling ↔ _
    rw [List.mem_cons]
    refine ⟨fun hc => hc.resolve_left ?_, .inr⟩
    rintro rfl
    exact absurd hv (Nat.not_le_of_lt hw)
  · obtain ⟨-, rfl⟩ := Prod.mk.inj hc.2
    exact absurd hv (Nat.not_le_of_lt hw)

theorem kept_pushed (h : Sane closing s) {v : ValueId} {p : OwnedPhi} {o : Operand} {q : BlockId}
    (hv : floor ≤ v.index) (hp : s.graph.phi? v = some p) :
    Kept floor scope s (s.pushed v p o q) := by
  refine kept_of_same h (s.graph.shape_withIncoming v _ o q)
    (s.graph.branches_withIncoming v _ o q) ?_ ?_ (s.graph.forwards_withIncoming v _ o q)
    (Graph.instr?_withIncoming hp o q) rfl (fun {x b a} ha => ?_)
    (fun _ _ hd ht => absurd hd ht) (fun {w p'} hw hp' => ?_) (fun _ => Iff.rfl)
    (fun _ hm => hm) fun hm => .inl hm
  · show (s.graph.withIncoming v ⟨p.var, p.incoming⟩ o q).entry = _
    unfold Graph.withIncoming
    rw [Graph.entry_addUses]
    rfl
  · exact Nat.le_of_eq (s.graph.size_withIncoming v _ o q).symm
  · have hres : (s.pushed v p o q).graph.resolve = s.graph.resolve :=
      funext (Graph.resolve_congr (s.graph.forwards_withIncoming v _ o q))
    unfold Tracked.reached
    rw [hres]
    exact ha
  · have hne : w ≠ v := by
      rintro rfl
      exact absurd hv (Nat.not_le_of_lt hw)
    refine ⟨p', ?_, rfl, rfl, rfl, rfl⟩
    show (s.graph.withIncoming v ⟨p.var, p.incoming⟩ o q).phi? w = some p'
    rw [Graph.phi?_withIncoming hp, if_neg hne, hp']

theorem kept_filled (h : Sane closing s) {v : ValueId} (hv : floor ≤ v.index) :
    Kept floor scope s (s.filled v) := by
  refine kept_of_same h (fun _ => rfl) (fun _ => rfl) rfl (Nat.le_refl _) rfl (fun _ => rfl) rfl
    (fun ho => ho) (fun _ _ hd ht => absurd hd ht) (fun _ hp => ⟨_, hp, rfl, rfl, rfl, rfl⟩)
    (fun {w} hw => ?_)
    (fun _ hm => hm) fun hm => .inl hm
  show w ∈ s.reaching.filling.filter (· ≠ v) ↔ _
  rw [List.mem_filter]
  refine ⟨fun hc => hc.1, fun hm => ⟨hm, ?_⟩⟩
  have : w ≠ v := by
    rintro rfl
    exact absurd hv (Nat.not_le_of_lt hw)
  simpa using this

theorem kept_recorded (h : Sane closing s) {x : VarId} {b : BlockId} {o : Operand}
    (ho : s.Reads x b o) : Kept floor scope s (s.recorded x b o) := by
  refine kept_of_same h (fun _ => rfl) (fun _ => rfl) rfl (Nat.le_refl _) rfl (fun _ => rfl) rfl
    (fun {y c a} ha => ?_) (fun {y c q} hs hp hd ht => ?_)
    (fun _ hp => ⟨_, hp, rfl, rfl, rfl, rfl⟩) (fun _ => Iff.rfl) (fun _ hm => hm) fun hm => .inl hm
  · refine reached_record h.steady (h.anchors_reads ho) ?_ ha
    cases ho with
    | again ho => exact .inr ho
    | nowhere hn _ _ _ _ _ => exact .inl hn
    | through hn _ _ _ _ => exact .inl hn
  · change (s.reaching.record x b o).defs.get? (c, y) ≠ none at ht
    rw [Reaching.get?_record] at ht
    by_cases e : (b, x) = (c, y)
    · obtain ⟨rfl, rfl⟩ := Prod.mk.inj e
      have hself : (s.recorded x b o).reached x b = some o := by
        show ((s.reaching.record x b o).defs.get? (b, x)).map s.graph.resolve = _
        rw [Reaching.get?_record, if_pos rfl, Option.map_some,
          h.steady.resolve_of_anchors (h.anchors_reads ho)]
      rw [hself]
      cases ho with
      | again ho =>
        unfold Tracked.reached at ho
        rw [hd] at ho
        cases ho
      | nowhere _ _ hp' _ _ _ =>
        rw [hp] at hp'
        cases hp'
      | through hn _ q' hp' ho' =>
        rw [hp] at hp'
        cases hp'
        exact (reached_record h.steady (h.anchors_reached ho') (.inl hn) ho').symm
    · rw [if_neg e] at ht
      exact absurd hd ht

theorem kept_alike (h : Sane closing s) (ha : s.Alike t) : Kept floor scope s t := by
  refine kept_of_same h ha.graph.shape ha.graph.branches ha.graph.entry
    (Nat.le_of_eq ha.graph.size.symm) ha.graph.forwards ha.graph.instr? ha.vars
    (fun {x b o} ho => ?_) (fun _ _ hd ht => absurd hd (by rwa [ha.defs] at ht))
    (fun {v p} _ hp => ⟨p, ?_, rfl, rfl, rfl, rfl⟩) (fun {v} _ => ?_)
    (fun {b x v} _ hm => ?_) (fun {b x v} hm => ?_)
  · have hres : t.graph.resolve = s.graph.resolve := funext ha.graph.resolve
    unfold Tracked.reached
    rw [hres, ha.defs]
    exact ho
  · rw [ha.graph.phi?, hp]
  · rw [ha.filling]
  · rw [ha.pending]
    exact hm
  · rw [ha.pending] at hm
    exact .inl hm

theorem kept_retired (h : Sane closing s) {v : ValueId} {p : OwnedPhi} {o : Operand} {g : Graph}
    (hv : floor ≤ v.index) (hp : s.graph.phi? v = some p) (hf : v ∉ s.reaching.filling)
    (hw : ∀ b x, (x, v) ∉ s.reaching.pending.image b)
    (ho : soleOperand (.value v) (.undef p.ty) p.operands = some o)
    (hg : Graph.Retired v o s.graph g) : Kept floor scope s ⟨g, s.reaching.reroute v o⟩ := by
  have hs' := h.retired hp hf hw ho hg
  have hatt := Graph.attached_of_phi? hp
  have hres : ∀ a, g.resolve a = Operand.replace (.value v) o (s.graph.resolve a) :=
    hg.resolve h.steady.forwarding hs'.steady.forwarding hatt
  obtain ⟨defs, holders, hr⟩ := s.reaching.reroute_eq v o
  have hpend : (s.reaching.reroute v o).pending = s.reaching.pending := by rw [hr]
  have hfill : (s.reaching.reroute v o).filling = s.reaching.filling := by rw [hr]
  have hidem : ∀ a, g.resolve (s.graph.resolve a) = g.resolve a := by
    intro a
    rw [hres, h.steady.forwarding.resolve_resolve, hres]
  -- the new forward leads from `v` to `o`, so replacing `v` first makes no difference
  have hrepl : ∀ a, g.resolve (Operand.replace (.value v) o a) = g.resolve a := by
    intro a
    by_cases e : a = .value v
    · subst e
      have h1 : g.resolve (.value v) = o := by
        rw [hres, h.steady.forwarding.resolve_of_attached hatt]
        exact if_pos rfl
      have h2 : g.resolve o = o := by
        rw [← h1, hs'.steady.forwarding.resolve_resolve]
      rw [show Operand.replace (.value v) o (.value v) = o from if_pos rfl, h1, h2]
    · rw [Operand.replace_of_ne e]
  refine ⟨hg.shape, hg.entry, Nat.le_of_eq hg.values_size.symm, ?_, by rw [hr], hidem,
    fun {x b a} ha => ?_, fun {x b q} _ _ hd ht => absurd ?_ ht, fun {w p'} hw' hp' => ?_,
    fun {w} _ => ?_, fun {b x w} _ hm => ?_,
    fun {b x w} hm => ?_, fun w => ?_, fun ha => ?_⟩
  · show _ ≤ g.forwards.pairs.length
    rw [hg.forwards, Table.pairs_insert_of_not_mem (h.steady.forwarding.not_mem_of_attached hatt)]
    exact Nat.le_succ _
  · obtain ⟨a', ha', rfl⟩ := Option.map_eq_some_iff.1 ha
    show ((s.reaching.reroute v o).defs.get? (b, x)).map g.resolve = _
    rw [Reaching.get?_reroute h.mirrored, ha', Option.map_some, Option.map_some, hrepl]
    exact congrArg some (hidem a').symm
  · show (s.reaching.reroute v o).defs.get? (b, x) = none
    rw [Reaching.get?_reroute h.mirrored, hd]
    rfl
  · have hne : w ≠ v := by
      rintro rfl
      exact absurd hv (Nat.not_le_of_lt hw')
    refine ⟨p'.replace (.value v) o, ?_, rfl, rfl, rfl, OwnedPhi.sources_replace _ _ _⟩
    rw [show (Tracked.mk g _).graph.phi? w = _ from hg.phi? w, if_neg hne, hp', Option.map_some]
  · show w ∈ (s.reaching.reroute v o).filling ↔ _
    rw [hfill]
  · show (x, w) ∈ (s.reaching.reroute v o).pending.image b
    rw [hpend]
    exact hm
  · change (x, w) ∈ (s.reaching.reroute v o).pending.image b at hm
    rw [hpend] at hm
    exact .inl hm
  · rw [show (Tracked.mk g _).graph.instr? w = _ from hg.instr? (by rw [hp]; rfl) w,
      Option.map_map]
    rfl
  · exact hg.settles h.steady hs'.steady ha (by rw [hp]; rfl)

/-- **What one step leaves alone.** -/
theorem kept (h : Sane closing s) (hf : floor ≤ s.graph.values.size)
    (hst : Step floor scope closing s new t) : Kept floor scope s t := by
  cases hst with
  | opened _ hb _ hp _ hn => exact kept_opened h hf hn (by rw [Graph.preds_of_block? hb]; exact hp)
  | awaited hx hb hs _ hn =>
    exact kept_awaited h hf hx hn (by rw [Graph.isSealed_of_block? hb, hs])
  | started _ hv _ => exact kept_started h hv
  | pushed hv _ hp _ _ => exact kept_pushed h hv hp
  | filled hv _ _ _ => exact kept_filled h hv
  | retired hv hp hf' hw ho hg => exact kept_retired h hv hp hf' hw ho hg
  | recorded _ ho => exact kept_recorded h ho
  | alike ha => exact kept_alike h ha

/-- Where a phi comes from: it was there before with the same block and variable, or the step made
    it. -/
theorem phi_origin (hst : Step floor scope closing s new t) {v : ValueId} {p : OwnedPhi}
    (hp : t.graph.phi? v = some p) :
    (∃ p₀, s.graph.phi? v = some p₀ ∧ p₀.block = p.block ∧ p₀.var = p.var) ∨
      new = some ⟨v, p.block, p.var⟩ := by
  cases hst with
  | opened _ _ _ _ _ _ =>
    rw [show (Tracked.opened s _ _ _).graph.phi? v = _ from s.graph.phi?_withPhi _ _ _ v] at hp
    split at hp
    · rename_i e
      cases hp
      exact .inr (by rw [e])
    · exact .inl ⟨p, hp, rfl, rfl⟩
  | awaited _ _ _ _ _ =>
    rw [show (Tracked.awaited s _ _ _).graph.phi? v = _ from s.graph.phi?_withPhi _ _ _ v] at hp
    split at hp
    · rename_i e
      cases hp
      exact .inr (by rw [e])
    · exact .inl ⟨p, hp, rfl, rfl⟩
  | started _ _ _ => exact .inl ⟨p, hp, rfl, rfl⟩
  | @pushed w p' o q _ _ hp' _ _ =>
    rw [show (s.pushed w p' o q).graph.phi? v = _ from Graph.phi?_withIncoming hp' o q v] at hp
    split at hp
    · rename_i e
      cases hp
      exact .inl ⟨p', e ▸ hp', rfl, rfl⟩
    · exact .inl ⟨p, hp, rfl, rfl⟩
  | filled _ _ _ _ => exact .inl ⟨p, hp, rfl, rfl⟩
  | retired _ _ _ _ _ hg =>
    change Graph.phi? _ v = some p at hp
    rw [hg.phi?] at hp
    split at hp
    · cases hp
    · obtain ⟨p₀, hp₀, rfl⟩ := Option.map_eq_some_iff.1 hp
      exact .inl ⟨p₀, hp₀, rfl, rfl⟩
  | recorded _ _ => exact .inl ⟨p, hp, rfl, rfl⟩
  | alike ha =>
    rw [ha.graph.phi?] at hp
    exact .inl ⟨p, hp, rfl, rfl⟩

/-- A new phi in a sealed block has several predecessors to get operands from. -/
theorem new_fed (hst : Step floor scope closing s new t) {n : NewPhi} (hn : new = some n)
    (hs : s.graph.isSealed n.block = true) : s.graph.preds n.block ≠ [] := by
  cases hst with
  | opened _ hb _ hp _ _ =>
    cases hn
    rw [Graph.preds_of_block? hb]
    intro e
    rw [e] at hp
    cases hp
  | awaited _ hb hy _ _ =>
    cases hn
    rw [Graph.isSealed_of_block? hb, hy] at hs
    cases hs
  | started _ _ _ => cases hn
  | pushed _ _ _ _ _ => cases hn
  | filled _ _ _ _ => cases hn
  | retired _ _ _ _ _ _ => cases hn
  | recorded _ _ => cases hn
  | alike _ => cases hn

/-- A new phi gets the next name. -/
theorem new_declared (hst : Step floor scope closing s new t) {n : NewPhi} (hn : new = some n) :
    ∃ d, variableById? s.reaching.vars n.var = some d := by
  cases hst with
  | opened _ _ _ _ hd _ =>
    cases hn
    exact ⟨_, hd⟩
  | awaited _ _ _ hd _ =>
    cases hn
    exact ⟨_, hd⟩
  | _ => cases hn

theorem new_value (hst : Step floor scope closing s new t) {n : NewPhi} (hn : new = some n) :
    n.value = s.graph.nextValue ∧ t.graph.values.size = s.graph.values.size + 1 := by
  cases hst with
  | opened _ _ _ _ _ _ =>
    cases hn
    exact ⟨rfl, s.graph.size_withPhi _ _ _⟩
  | awaited _ _ _ _ _ =>
    cases hn
    exact ⟨rfl, s.graph.size_withPhi _ _ _⟩
  | started _ _ _ => cases hn
  | pushed _ _ _ _ _ => cases hn
  | filled _ _ _ _ => cases hn
  | retired _ _ _ _ _ _ => cases hn
  | recorded _ _ => cases hn
  | alike _ => cases hn

end Step

/-! ## 4. Chains of steps -/

/-- A chain of steps, with the phis it made in order. -/
inductive Steps (floor : Nat) (scope : VarId → Prop) (closing : Option BlockId) :
    Tracked → List NewPhi → Tracked → Prop where
  | refl (s : Tracked) : Steps floor scope closing s [] s
  | cons {s t u : Tracked} {new : Option NewPhi} {made : List NewPhi}
      (h : Step floor scope closing s new t) (h' : Steps floor scope closing t made u) :
      Steps floor scope closing s (new.toList ++ made) u

namespace Graph

/-- Values that refer to one from `floor` on are themselves from `floor` on. -/
def Apart (floor : Nat) (g : Graph) : Prop :=
  ∀ w v, floor ≤ w.index → g.Refers w (.value v) → floor ≤ v.index

theorem Apart.of_size_le {floor : Nat} {g : Graph} (h : g.Steady)
    (hf : g.values.size ≤ floor) : g.Apart floor :=
  fun _ _ hw hr => absurd (Nat.lt_of_lt_of_le (h.knows hr) hf) (Nat.not_lt_of_le hw)

theorem Apart.zero (g : Graph) : g.Apart 0 := fun _ _ _ _ => Nat.zero_le _

end Graph

namespace Step

variable {floor : Nat} {scope : VarId → Prop} {closing : Option BlockId} {s t : Tracked}
  {new : Option NewPhi}

theorem mono {floor' : Nat} {scope' : VarId → Prop} (h : Step floor scope closing s new t)
    (hf : floor' ≤ floor) (hs : ∀ x, scope x → scope' x) :
    Step floor' scope' closing s new t := by
  cases h with
  | opened hx hb hs' hp hd hn => exact .opened (hs _ hx) hb hs' hp hd hn
  | awaited hx hb hs' hd hn => exact .awaited (hs _ hx) hb hs' hd hn
  | started hc hv hp => exact .started hc (Nat.le_trans hf hv) hp
  | pushed hv hf' hp hq ho => exact .pushed (Nat.le_trans hf hv) hf' hp hq ho
  | filled hv hf' hp hq => exact .filled (Nat.le_trans hf hv) hf' hp hq
  | retired hv hp hf' hw ho hg => exact .retired (Nat.le_trans hf hv) hp hf' hw ho hg
  | recorded hx ho => exact .recorded (hs _ hx) ho
  | alike ha => exact .alike ha

/-- The store of values grows by the new phi. -/
theorem size (h : Step floor scope closing s new t) :
    t.graph.values.size = s.graph.values.size + new.toList.length := by
  cases h with
  | opened _ _ _ _ _ _ => exact s.graph.size_withPhi _ _ _
  | awaited _ _ _ _ _ => exact s.graph.size_withPhi _ _ _
  | started _ _ _ => rfl
  | pushed _ _ _ _ _ => exact s.graph.size_withIncoming _ _ _ _
  | filled _ _ _ _ => rfl
  | retired _ _ _ _ _ hg => exact hg.values_size
  | recorded _ _ => rfl
  | alike ha => exact ha.graph.size

theorem refers_withPhi {g : Graph} {b : BlockId} {x : VarId} {ty : Ty} {w v : ValueId}
    (h : (g.withPhi b x ty).Refers w (.value v)) : g.Refers w (.value v) := by
  rw [Graph.refers_value_iff, Graph.phi?_withPhi, Graph.instr?_withPhi] at h
  rw [Graph.refers_value_iff]
  rcases h with ⟨p, hp, hm⟩ | hi
  · split at hp
    · cases hp
      cases hm
    · exact .inl ⟨p, hp, hm⟩
  · exact .inr hi

/-- Who refers to values above the floor stays above it. -/
theorem apart (h : Sane closing s) (hst : Step floor scope closing s new t)
    (ha : s.graph.Apart floor) : t.graph.Apart floor := by
  cases hst with
  | opened _ _ _ _ _ _ => exact fun w v hw hr => ha w v hw (refers_withPhi hr)
  | awaited _ _ _ _ _ => exact fun w v hw hr => ha w v hw (refers_withPhi hr)
  | started _ _ _ => exact ha
  | @pushed v p o q hv _ hp _ _ =>
    intro w u hw hr
    have hr' := Graph.refers_value_iff.1 hr
    rw [show (s.pushed v p o q).graph.phi? u = _ from Graph.phi?_withIncoming hp o q u,
      show (s.pushed v p o q).graph.instr? u = _ from Graph.instr?_withIncoming hp o q u] at hr'
    rcases hr' with ⟨p', hp', hm⟩ | hi
    · split at hp'
      · rename_i e
        exact e ▸ hv
      · exact ha w u hw (Graph.refers_value_iff.2 (.inl ⟨p', hp', hm⟩))
    · exact ha w u hw (Graph.refers_value_iff.2 (.inr hi))
  | filled _ _ _ _ => exact ha
  | @retired v p o g hv hp hf hw ho hg =>
    have hne := (h.anchors_sole hp ho).2
    intro w u hw' hr
    -- a reference of the new graph is an old one, or an old one to `v`
    obtain ⟨x', hx', hatt, hm⟩ := (Graph.refers_value _ _ _).1 hr
    rw [show (Tracked.mk g _).graph.value? u = _ from hg.value u] at hx'
    obtain ⟨x, hx, rfl⟩ := Option.map_eq_some_iff.1 hx'
    split at hatt
    · cases hatt
    · rename_i e
      rw [if_neg e] at hm
      by_cases hxa : x.isAttached = true
      · rw [if_pos hxa, Value.operands_replace, Operand.mem_map_replace] at hm
        rcases hm with ⟨-, hm⟩ | ⟨-, hm⟩
        · exact ha w u hw' ((Graph.refers_value _ _ _).2 ⟨x, hx, hxa, hm⟩)
        · exact ha v u hv ((Graph.refers_value _ _ _).2 ⟨x, hx, hxa, hm⟩)
      · rw [if_neg hxa] at hatt
        exact absurd hatt hxa
  | recorded _ _ => exact ha
  | alike hal =>
    intro w v hw hr
    refine ha w v hw ?_
    have hr' := Graph.refers_value_iff.1 hr
    rw [hal.graph.phi?, hal.graph.instr?] at hr'
    exact Graph.refers_value_iff.2 hr'

end Step

namespace Steps

variable {floor : Nat} {scope : VarId → Prop} {closing : Option BlockId} {s t u : Tracked}
  {made made' : List NewPhi}

theorem single {new : Option NewPhi} (h : Step floor scope closing s new t) :
    Steps floor scope closing s new.toList t := by
  have := Steps.cons h (.refl t)
  rw [List.append_nil] at this
  exact this

theorem trans (h : Steps floor scope closing s made t) (h' : Steps floor scope closing t made' u) :
    Steps floor scope closing s (made ++ made') u := by
  induction h with
  | refl s => exact h'
  | cons hst _ ih =>
    rw [List.append_assoc]
    exact .cons hst (ih h')

theorem mono {floor' : Nat} {scope' : VarId → Prop} (h : Steps floor scope closing s made t)
    (hf : floor' ≤ floor) (hs : ∀ x, scope x → scope' x) :
    Steps floor' scope' closing s made t := by
  induction h with
  | refl s => exact .refl s
  | cons hst _ ih => exact .cons (hst.mono hf hs) ih

/-- The store of values grows by the new phis. -/
theorem size (h : Steps floor scope closing s made t) :
    t.graph.values.size = s.graph.values.size + made.length := by
  induction h with
  | refl s => rfl
  | cons hst _ ih =>
    rw [ih, hst.size, List.length_append]
    omega

/-- **A chain of steps keeps graph and tables consistent.** -/
theorem sane (h : Steps floor scope closing s made t) (hs : Sane closing s) : Sane closing t := by
  induction h with
  | refl s => exact hs
  | cons hst _ ih => exact ih (hs.step hst)

theorem apart (h : Steps floor scope closing s made t) (hs : Sane closing s)
    (ha : s.graph.Apart floor) : t.graph.Apart floor := by
  induction h with
  | refl s => exact ha
  | cons hst _ ih => exact ih (hs.step hst) (hst.apart hs ha)

/-- **What a chain of steps leaves alone.** -/
theorem kept (h : Steps floor scope closing s made t) (hs : Sane closing s)
    (hf : floor ≤ s.graph.values.size) : Kept floor scope s t := by
  induction h with
  | refl s => exact Step.kept hs hf (.alike (.refl s) : Step floor scope closing s none s)
  | cons hst _ ih =>
    have hs' := hs.step hst
    have hk := Step.kept hs hf hst
    exact hk.trans (ih hs' (Nat.le_trans hf hk.size)) hs'.steady

/-- Where a phi comes from: it was there before with the same block and variable, or the chain made
    it, and then it has predecessors to get operands from if its block is sealed. -/
theorem phi_origin (h : Steps floor scope closing s made t) (hs : Sane closing s)
    (hf : floor ≤ s.graph.values.size) {v : ValueId} {p : OwnedPhi}
    (hp : t.graph.phi? v = some p) :
    (∃ p₀, s.graph.phi? v = some p₀ ∧ p₀.block = p.block ∧ p₀.var = p.var) ∨
      ((⟨v, p.block, p.var⟩ : NewPhi) ∈ made ∧
        (s.graph.isSealed p.block = true → s.graph.preds p.block ≠ [])) := by
  induction h with
  | refl s => exact .inl ⟨p, hp, rfl, rfl⟩
  | cons hst _ ih =>
    have hk := Step.kept hs hf hst
    rcases ih (hs.step hst) (Nat.le_trans hf hk.size) hp with ⟨p₀, hp₀, e1, e2⟩ | ⟨hm, hfed⟩
    · rcases hst.phi_origin hp₀ with ⟨p₁, hp₁, f1, f2⟩ | e
      · exact .inl ⟨p₁, hp₁, f1.trans e1, f2.trans e2⟩
      · rw [e1, e2] at e
        exact .inr ⟨List.mem_append_left _ (Option.mem_toList.2 e), hst.new_fed e⟩
    · rw [hk.isSealed, hk.preds] at hfed
      exact .inr ⟨List.mem_append_right _ hm, hfed⟩

end Steps

end BitFlow
