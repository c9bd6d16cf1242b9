import BitFlow.Proofs.Lower.Basic
import BitFlow.Proofs.Lower.Rooted
import BitFlow.Proofs.Lower.Span
import Mathlib.Data.List.Nodup

/-!
# Every live block ends in a jump that is always taken

The jumps of a block are added one by one and at different times: the arms of a conditional one
after the other, the jump back at the end of a loop's body, those of a `break` only when the loop is
closed. A block waits until it has got them all. `Extends b waits` says that only `b` and new blocks
have got jumps, and that every new live block has ended, but for those that wait.

Main statements: `Lower.finishes_lowerStmts` -- statements leave no block behind that waits, but for
the one in which they end and those that leave an open loop; `Program.terminated_lower` -- in a
lowered program none waits but the last.
-/

namespace BitFlow

/-! ## 1. Terminators -/

namespace Block

/-- The jumps of the block are some that have a condition, and one at the end that has none. -/
def Terminated (y : Block) : Prop :=
  ∃ tests last, y.branches = tests ++ [last] ∧ last.cond = none ∧ ∀ br ∈ tests, br.cond ≠ none

/-- The first jump that is taken where `holds` tells which conditions hold. -/
def taken (holds : Operand → Bool) (y : Block) : Option Branch :=
  y.branches.find? fun br => br.cond.all holds

/-- **A terminated block always has a jump to take.** -/
theorem Terminated.taken_isSome {y : Block} (h : y.Terminated) (holds : Operand → Bool) :
    (y.taken holds).isSome = true := by
  obtain ⟨tests, last, hb, hl, -⟩ := h
  unfold taken
  rw [hb, List.find?_isSome]
  exact ⟨last, List.mem_append_right _ List.mem_cons_self, by rw [hl]; rfl⟩

/-- **No jump of a terminated block stands behind one that is always taken.** -/
theorem Terminated.last_of_always {y : Block} (h : y.Terminated) {before after : List Branch}
    {br : Branch} (hb : y.branches = before ++ br :: after) (hc : br.cond = none) : after = [] := by
  obtain ⟨tests, last, hy, -, htests⟩ := h
  by_contra hne
  -- the last jump is the last of those behind `br`, so `br` is one of the tests
  have hlen : tests.length = before.length + after.length := by
    have := congrArg List.length (hb.symm.trans hy)
    simp only [List.length_append, List.length_cons, List.length_nil] at this
    omega
  have hpos := List.length_pos_iff.2 hne
  have hmem : br ∈ tests := by
    have hget : (tests ++ [last])[before.length]? = some br := by
      rw [← hy, hb, List.getElem?_append_right (Nat.le_refl _), Nat.sub_self]
      rfl
    rw [List.getElem?_append_left (by omega)] at hget
    exact List.mem_of_getElem? hget
  exact htests br hmem hc

/-- What tells whether a block is terminated: for each jump whether it has a condition. -/
def guards (y : Block) : List Bool := y.branches.map fun br => br.cond.isSome

theorem terminated_of_guards {y : Block} {n : Nat}
    (h : y.guards = List.replicate n true ++ [false]) : y.Terminated := by
  obtain ⟨tests, rest, hb, ht, hr⟩ := List.map_eq_append_iff.1 h
  obtain ⟨last, rfl, hl⟩ := List.map_eq_singleton_iff.1 hr
  refine ⟨tests, last, hb, by simpa using hl, fun br hbr => ?_⟩
  have := List.eq_of_mem_replicate (ht ▸ List.mem_map_of_mem hbr)
  exact Option.isSome_iff_ne_none.1 this

theorem overlooks_guards : Overlooks fun y => (y.kind, y.guards) := by
  refine ⟨fun _ _ => rfl, fun _ _ => rfl, fun _ _ => rfl, fun y h => ?_⟩
  unfold guards
  rw [List.map_map]
  refine congrArg (Prod.mk y.kind) (List.map_congr_left fun br _ => ?_)
  show (br.cond.map h).isSome = br.cond.isSome
  rw [Option.isSome_map]

end Block

namespace Graph

/-- For each jump of a block whether it has a condition. -/
def guards (g : Graph) (b : BlockId) : List Bool := ((g.block? b).map Block.guards).getD []

/-- The jumps of `b` are some that have a condition, and one at the end that has none. -/
def Ended (g : Graph) (b : BlockId) : Prop := ∃ n, g.guards b = List.replicate n true ++ [false]

variable {g g' g₁ g₂ : Graph} {a b c q : BlockId} {w w' rest : List BlockId}
  {gs gs' : List Bool}

theorem guards_of_block? {y : Block} (h : g.block? b = some y) : g.guards b = y.guards := by
  unfold guards
  rw [h]
  rfl

theorem guards_eq_branches (g : Graph) (b : BlockId) :
    g.guards b = (g.branches b).map fun br => br.cond.isSome := by
  unfold guards branches
  cases g.block? b <;> rfl

theorem guards_of_unknown (h : g.kind? b = none) : g.guards b = [] := by
  unfold guards
  rw [Option.map_eq_none_iff.1 h]
  rfl

/-! ## 2. Blocks that wait for jumps -/

/-- **Only `b` and new blocks have got jumps**, and every new live block has ended, but for those
    that wait, which have no jump yet. -/
structure Extends (b : BlockId) (due : List BlockId) (g g' : Graph) : Prop where
  kind : ∀ {c k}, g.kind? c = some k → g'.kind? c = some k
  guards : ∀ {c}, g.kind? c ≠ none → c ≠ b → g'.guards c = g.guards c
  waits : ∀ {c}, c ∈ due → (c = b ∨ g.kind? c = none) ∧ g'.kind? c ≠ none ∧ g'.guards c = []
  nodup : due.Nodup
  ended : ∀ {c}, g.kind? c = none → g'.kind? c = some .live → c ∉ due → g'.Ended c

theorem Extends.known (h : Extends b w g g') (hc : g.kind? c ≠ none) : g'.kind? c ≠ none := by
  obtain ⟨k, hk⟩ := Option.ne_none_iff_exists'.1 hc
  rw [h.kind hk]
  simp

/-- A block is live afterwards if it was. -/
theorem Extends.live_iff (h : Extends b w g g') (hc : g.kind? c ≠ none) :
    g'.kind? c = some .live ↔ g.kind? c = some .live := by
  obtain ⟨k, hk⟩ := Option.ne_none_iff_exists'.1 hc
  rw [h.kind hk, hk]

theorem Extends.ended_of_ne (h : Extends b w g g') (hc : g.kind? c ≠ none) (hne : c ≠ b)
    (he : g.Ended c) : g'.Ended c := by
  obtain ⟨n, hn⟩ := he
  exact ⟨n, (h.guards hc hne).trans hn⟩

/-- Where kinds and jumps are the same nothing has grown. -/
theorem Extends.of_same (b : BlockId) (hk : ∀ c, g'.kind? c = g.kind? c)
    (hg : ∀ c, g'.guards c = g.guards c) : Extends b [] g g' := by
  refine ⟨fun h => (hk _).trans h, fun _ _ => hg _, fun h => (by cases h), .nil,
    fun hn hl => ?_⟩
  rw [hk, hn] at hl
  cases hl

/-- **One part after the other**: the second starts at the block `c`, which has been waiting or is
    the first one, and which has ended then or waits again. -/
theorem Extends.trans (h : Extends b w g g₁) (h' : Extends c w' g₁ g₂) (hc : c = b ∨ c ∈ w)
    (hrest : ∀ a, a ∈ rest ↔ a ∈ w ∧ a ≠ c) (hnodup : rest.Nodup)
    (hend : g.kind? c = none → g₂.kind? c = some .live → c ∉ w' → g₂.Ended c) :
    Extends b (rest ++ w') g g₂ := by
  have hregion : c = b ∨ g.kind? c = none := hc.elim .inl fun hm => (h.waits hm).1
  -- what waited before the second part is none of its blocks
  have hold : ∀ {a}, a ∈ rest → a ∈ w ∧ a ≠ c ∧ g₁.kind? a ≠ none := fun ha =>
    ⟨((hrest _).1 ha).1, ((hrest _).1 ha).2, (h.waits ((hrest _).1 ha).1).2.1⟩
  refine ⟨fun hk => h'.kind (h.kind hk), fun {a} ha hab => ?_, fun {a} ha => ?_,
    List.nodup_append.2 ⟨hnodup, h'.nodup, fun a ha a' ha' e => ?_⟩, fun {a} hn hl ha => ?_⟩
  · have hac : a ≠ c := by
      rintro rfl
      exact hregion.elim hab ha
    rw [h'.guards (h.known ha) hac, h.guards ha hab]
  · rcases List.mem_append.1 ha with ha | ha
    · obtain ⟨hm, hne, hk⟩ := hold ha
      exact ⟨(h.waits hm).1, h'.known hk, (h'.guards hk hne).trans (h.waits hm).2.2⟩
    · obtain ⟨hr, hk, hg⟩ := h'.waits ha
      refine ⟨?_, hk, hg⟩
      rcases hr with rfl | hn
      · exact hregion
      · exact .inr (by_contra fun hne => h.known hne hn)
  · subst e
    obtain ⟨-, hne, hk⟩ := hold ha
    exact (h'.waits ha').1.elim hne hk
  · rw [List.mem_append, not_or, hrest, not_and_or, not_not] at ha
    by_cases hk : g₁.kind? a = none
    · exact h'.ended hk hl ha.2
    by_cases hac : a = c
    · subst hac
      exact hend hn hl ha.2
    · exact h'.ended_of_ne hk hac
        (h.ended hn ((h'.live_iff hk).1 hl) (ha.1.resolve_right hac))

theorem Extends.perm (h : Extends b w g g') (hw : w.Perm w') : Extends b w' g g' :=
  ⟨h.kind, h.guards, fun hc => h.waits (hw.mem_iff.2 hc), hw.nodup_iff.1 h.nodup,
    fun hn hl hc => h.ended hn hl fun hm => hc (hw.mem_iff.1 hm)⟩

/-- **The block `b` has got the jumps `gs` as well**, and waits no more. -/
structure Adds (b : BlockId) (gs : List Bool) (due : List BlockId) (g g' : Graph) : Prop
    extends Extends b due g g' where
  known : g.kind? b ≠ none
  apart : b ∉ due
  own : g.kind? b = some .live → g'.guards b = g.guards b ++ gs

/-- Further jumps of the block. -/
theorem Adds.trans (h : Adds b gs w g g₁) (h' : Adds b gs' w' g₁ g₂) :
    Adds b (gs ++ gs') (w ++ w') g g₂ := by
  refine ⟨h.toExtends.trans h'.toExtends (.inl rfl) (fun a => ?_) h.nodup
    fun hn => absurd hn h.known, h.known, fun hm => ?_, fun hl => ?_⟩
  · exact ⟨fun ha => ⟨ha, fun e => h.apart (e ▸ ha)⟩, fun ha => ha.1⟩
  · exact (List.mem_append.1 hm).elim h.apart h'.apart
  · rw [h'.own ((h.live_iff h.known).2 hl), h.own hl, List.append_assoc]

/-- Another block gets its jumps, which has been waiting for them. -/
theorem Adds.via (h : Adds b gs w g g₁) (hw : w.Perm (c :: rest)) (h' : Extends c w' g₁ g₂)
    (hend : g₂.kind? c = some .live → c ∉ w' → g₂.Ended c) : Adds b gs (rest ++ w') g g₂ := by
  have hcw : c ∈ w := hw.mem_iff.2 List.mem_cons_self
  have hnodup := hw.nodup_iff.1 h.nodup
  have hne : b ≠ c := fun e => h.apart (e ▸ hcw)
  have hknown := h.toExtends.known h.known
  have hrest : ∀ a, a ∈ rest ↔ a ∈ w ∧ a ≠ c := by
    intro a
    rw [hw.mem_iff, List.mem_cons]
    constructor
    · intro ha
      refine ⟨.inr ha, ?_⟩
      rintro rfl
      exact (List.nodup_cons.1 hnodup).1 ha
    · exact fun ha => ha.1.resolve_left ha.2
  refine ⟨h.toExtends.trans h' (.inr hcw) hrest (List.nodup_cons.1 hnodup).2 fun _ => hend,
    h.known, fun hm => ?_, fun hl => ?_⟩
  · rcases List.mem_append.1 hm with hm | hm
    · exact h.apart ((hrest b).1 hm).1
    · exact (h'.waits hm).1.elim hne hknown
  · rw [h'.guards hknown hne, h.own hl]

theorem Adds.perm (h : Adds b gs w g g') (hw : w.Perm w') : Adds b gs w' g g' :=
  ⟨h.toExtends.perm hw, h.known, fun hm => h.apart (hw.mem_iff.2 hm), h.own⟩

/-! ## 3. Blocks, edges and dead blocks -/

theorem guards_pushBlock (g : Graph) (label : String) (kind : BlockKind) (b : BlockId) :
    (g.pushBlock label kind).guards b = g.guards b := by
  rw [guards_eq_branches, guards_eq_branches, branches_pushBlock]

/-- A new block waits. -/
theorem adds_pushBlock (hb : g.kind? b ≠ none) (label : String) (kind : BlockKind) :
    Adds b [] [g.nextBlock] g (g.pushBlock label kind) := by
  have hnew := g.kind?_nextBlock
  refine ⟨⟨fun {c k} hk => ?_, fun _ _ => g.guards_pushBlock label kind _, fun {c} hc => ?_,
    List.nodup_singleton _, fun {c} hn hl hc => ?_⟩, hb, fun hm => ?_, fun _ => ?_⟩
  · rw [kind?_pushBlock, if_neg, hk]
    rintro rfl
    rw [hnew] at hk
    cases hk
  · rw [List.mem_singleton.1 hc, kind?_pushBlock, if_pos rfl, guards_pushBlock]
    exact ⟨.inr hnew, by simp, guards_of_unknown hnew⟩
  · rw [kind?_pushBlock, if_neg (fun e => hc (List.mem_singleton.2 e)), hn] at hl
    cases hl
  · rw [List.mem_singleton.1 hm] at hb
    exact hb hnew
  · rw [guards_pushBlock, List.append_nil]

/-- An edge is a jump of its source. -/
theorem adds_link {z : Block} (hz : g.block? q = some z) (cond : Option Operand) (c : BlockId) :
    Adds q [cond.isSome] [] g (g.link q cond c) := by
  have hguards : ∀ a, (g.link q cond c).guards a =
      if q = a then g.guards a ++ [cond.isSome] else g.guards a := by
    intro a
    rw [guards_eq_branches, guards_eq_branches, branches_link hz]
    split
    · rw [List.map_append]
      rfl
    · rfl
  refine ⟨⟨fun hk => by rwa [kind?_link], fun {a} _ ha => ?_, fun h => (by cases h), .nil,
    fun hn hl => ?_⟩, ?_, List.not_mem_nil, fun _ => ?_⟩
  · rw [hguards, if_neg fun e => ha e.symm]
  · rw [kind?_link, hn] at hl
    cases hl
  · rw [kind?_of_block? hz]
    simp
  · rw [hguards, if_pos rfl]

/-- A block that waits may be declared dead if it is new. -/
theorem Adds.withDead (h : Adds b gs w g g') {y : Block} (hc : g'.block? c = some y) (hw : c ∈ w) :
    Adds b gs w g (g'.withDead c) := by
  have hguards : ∀ a, (g'.withDead c).guards a = g'.guards a := by
    intro a
    rw [guards_eq_branches, guards_eq_branches, branches_withDead]
  have hnew : g.kind? c = none := (h.waits hw).1.resolve_left fun e => h.apart (e ▸ hw)
  have hold : ∀ {a}, a ≠ c → (g'.withDead c).kind? a = g'.kind? a := fun ha => by
    rw [kind?_withDead hc, if_neg ha]
  refine ⟨⟨fun {a k} hk => ?_, fun ha hab => (hguards _).trans (h.guards ha hab), fun {a} ha => ?_,
    h.nodup, fun {a} hn hl ha => ?_⟩, h.known, h.apart, fun hl => (hguards b).trans (h.own hl)⟩
  · rw [hold, h.kind hk]
    rintro rfl
    rw [hnew] at hk
    cases hk
  · obtain ⟨h1, h2, h3⟩ := h.waits ha
    refine ⟨h1, ?_, (hguards a).trans h3⟩
    rw [kind?_withDead hc]
    split
    · simp
    · exact h2
  · have hac : a ≠ c := by
      rintro rfl
      exact ha hw
    rw [hold hac] at hl
    obtain ⟨n, hn⟩ := h.ended hn hl ha
    exact ⟨n, (hguards a).trans hn⟩

end Graph

/-! ## 4. What lowering a statement leaves -/

open BitFlow.Graph (Extends Adds)

/-- **Lowering from `b` on has come to `b'`**: only that block waits for jumps, and the blocks that
    leave the innermost loop. -/
structure Finished (b : BlockId) (l : Lowering) (extra : List BlockId) (b' : BlockId)
    (l' : Lowering) : Prop where
  grows : Extends b (b' :: extra) l.bench.graph l'.bench.graph
  first : l.bench.graph.kind? b = some .live → b ∉ b' :: extra → l'.bench.graph.Ended b
  loops : l'.loops = withBreaks extra l.loops
  outside : l.loops = [] → extra = []

namespace Finished

variable {b b₁ b₂ : BlockId} {l l₁ l₂ : Lowering} {e₁ e₂ : List BlockId} {gs : List Bool}

theorem refl (hk : l.bench.graph.kind? b ≠ none) (hg : l.bench.graph.guards b = []) :
    Finished b l [] b l where
  grows := ⟨id, fun _ _ => rfl, fun hc => by
    rw [List.mem_singleton.1 hc]
    exact ⟨.inl rfl, hk, hg⟩, List.nodup_singleton _, fun hn hl => by rw [hn] at hl; cases hl⟩
  first := fun _ hb => absurd List.mem_cons_self hb
  loops := (withBreaks_nil _).symm
  outside := fun _ => rfl

/-- The block where lowering goes on is known and has no jump. -/
theorem next (h : Finished b l e₁ b₁ l₁) :
    l₁.bench.graph.kind? b₁ ≠ none ∧ l₁.bench.graph.guards b₁ = [] :=
  (h.grows.waits List.mem_cons_self).2

/-- **One statement after the other.** -/
theorem trans (hb : l.bench.graph.kind? b ≠ none) (h : Finished b l e₁ b₁ l₁)
    (h' : Finished b₁ l₁ e₂ b₂ l₂) : Finished b l (e₁ ++ e₂) b₂ l₂ := by
  have hnodup := List.nodup_cons.1 h.grows.nodup
  have hrest : ∀ a, a ∈ e₁ ↔ a ∈ b₁ :: e₁ ∧ a ≠ b₁ := by
    intro a
    rw [List.mem_cons]
    constructor
    · intro ha
      refine ⟨.inr ha, ?_⟩
      rintro rfl
      exact hnodup.1 ha
    · exact fun ha => ha.1.resolve_left ha.2
  have hgrows := h.grows.trans h'.grows (.inr List.mem_cons_self) hrest hnodup.2 fun _ hl hm =>
    h'.first ((h'.grows.live_iff h.next.1).1 hl) hm
  refine ⟨hgrows.perm List.perm_middle, fun hl hm => ?_, ?_, fun hn => ?_⟩
  · rw [List.mem_cons, List.mem_append, not_or, not_or] at hm
    by_cases e : b = b₁
    · subst e
      refine h'.first ((h.grows.live_iff hb).2 hl) ?_
      rw [List.mem_cons, not_or]
      exact ⟨hm.1, hm.2.2⟩
    · refine h'.grows.ended_of_ne (h.grows.known hb) e (h.first hl ?_)
      rw [List.mem_cons, not_or]
      exact ⟨e, hm.2.1⟩
  · rw [h'.loops, h.loops, withBreaks_append]
  · rw [h.outside hn, h'.outside (by rw [h.loops, hn]; rfl)]
    rfl

/-- A block that has got all its jumps has ended. -/
theorem of_adds {n : Nat} (h : Adds b (List.replicate n true ++ [false]) (b₁ :: e₁) l.bench.graph
    l₁.bench.graph) (hg : l.bench.graph.guards b = []) (hl : l₁.loops = withBreaks e₁ l.loops)
    (ho : l.loops = [] → e₁ = []) : Finished b l e₁ b₁ l₁ :=
  ⟨h.toExtends, fun hlive _ => ⟨n, by rw [h.own hlive, hg]; rfl⟩, hl, ho⟩

end Finished

namespace Lower

variable {l : Lowering} {α : Type}

/-- **The action leaves no block behind that waits for jumps**, but for the one in which it ends and
    those that leave the innermost loop. -/
def Finishes (x : BlockId → Lower BlockId) : Prop :=
  ∀ (l : Lowering) (b : BlockId), l.bench.graph.kind? b ≠ none → l.bench.graph.guards b = [] →
    Ends (x b) l (fun _ => True) fun b' l' => ∃ extra, Finished b l extra b' l'

theorem Finishes.pure : Finishes Pure.pure := fun _ _ hk hg => ⟨[], .refl hk hg⟩

/-- Actions that are no control flow change neither kinds nor jumps. -/
theorem ends_quiet {x : Lower α}
    (hx : Keeps (fun l => (l.bench.graph.view fun y => (y.kind, y.guards), l.loops)) x)
    {Q : α → Lowering → Prop}
    (hQ : ∀ a l', (∀ b, Extends b [] l.bench.graph l'.bench.graph) →
      (∀ b, l'.bench.graph.guards b = l.bench.graph.guards b) → l'.loops = l.loops → Q a l') :
    Ends x l (fun _ => True) Q := by
  refine (hx l).mono fun a l' he => ?_
  obtain ⟨hv, hl⟩ := Prod.ext_iff.1 he
  have hblock : ∀ b, (l'.bench.graph.block? b).map (fun y => (y.kind, y.guards)) =
      (l.bench.graph.block? b).map fun y => (y.kind, y.guards) := congrFun (Prod.ext_iff.1 hv).2
  have hk : ∀ b, l'.bench.graph.kind? b = l.bench.graph.kind? b := by
    intro b
    have := congrArg (Option.map Prod.fst) (hblock b)
    rwa [Option.map_map, Option.map_map] at this
  have hg : ∀ b, l'.bench.graph.guards b = l.bench.graph.guards b := by
    intro b
    have := congrArg (fun o => (Option.map Prod.snd o).getD []) (hblock b)
    rwa [Option.map_map, Option.map_map] at this
  exact hQ a l' (fun b => .of_same b hk hg) hg hl

/-- What is no control flow, as far as jumps are concerned. -/
theorem quiet : Compositional fun _ x =>
    Keeps (fun l => (l.bench.graph.view fun y => (y.kind, y.guards), l.loops)) x :=
  compositional_keeps Block.overlooks_guards

/-! ## 5. Blocks and edges -/

section Control

variable {advance body : BlockId → Lower BlockId} {b : BlockId} {gs : List Bool}
  {w : List BlockId} {g : Graph}

/-- A new block of the kind of its parent, which waits. -/
theorem ends_newBlock_adds (h : Adds b gs w g l.bench.graph) {label : String} {parent : BlockId}
    {Q : BlockId → Lowering → Prop}
    (hQ : ∀ c l', Adds b gs (w ++ [c]) g l'.bench.graph → l'.loops = l.loops → Q c l') :
    Ends (newBlock label parent) l (fun _ => True) Q := by
  unfold newBlock
  rw [Ends.bind_iff, ends_edit]
  refine Edit.ends_block_or trivial fun y _ => ?_
  rw [ends_edit]
  have hnew := h.trans (Graph.adds_pushBlock (h.toExtends.known h.known) label
    (if y.isUnreachable = true then BlockKind.unreachable else .live))
  rw [List.append_nil] at hnew
  exact hQ _ _ hnew rfl

/-- A new block that nothing reaches, which waits as well. -/
theorem ends_addBlock_adds (h : Adds b gs w g l.bench.graph) {label : String} {kind : BlockKind}
    {Q : BlockId → Lowering → Prop}
    (hQ : ∀ c l', Adds b gs (w ++ [c]) g l'.bench.graph → l'.loops = l.loops → Q c l') :
    Ends (liftM (Edit.addBlock label kind) : Lower BlockId) l (fun _ => True) Q := by
  rw [ends_edit]
  have hnew := h.trans (Graph.adds_pushBlock (h.toExtends.known h.known) label kind)
  rw [List.append_nil] at hnew
  exact hQ _ _ hnew rfl

/-- An edge is a jump of its source, if that is live. -/
theorem ends_addEdge_adds {q c : BlockId} {cond : Option Operand} {Q : Unit → Lowering → Prop}
    (hQ : ∀ l', Adds q [cond.isSome] [] l.bench.graph l'.bench.graph → l'.loops = l.loops →
      Q () l') : Ends (liftM (Edit.addEdge q cond c) : Lower Unit) l (fun _ => True) Q := by
  rw [ends_edit]
  unfold Edit.addEdge
  rw [Ends.bind_iff]
  refine Edit.ends_block_or trivial fun z hz => ?_
  split
  · rename_i hdead
    have hk : l.bench.graph.kind? q = some .unreachable := by
      rw [Graph.kind?_of_block? hz, beq_iff_eq.1 hdead]
    refine hQ l ⟨.of_same q (fun _ => rfl) fun _ => rfl, by rw [hk]; simp, List.not_mem_nil,
      fun hl => ?_⟩ rfl
    rw [hk] at hl
    cases hl
  rw [Ends.bind_iff]
  refine Edit.ends_block_or trivial fun y _ => ?_
  split
  · trivial
  · exact hQ { l with bench := { l.bench with graph := l.bench.graph.link q cond c } }
      (Graph.adds_link hz cond c) rfl

/-- **A block that waits gets a jump that is always taken**, and waits no more. -/
theorem ends_default {c d : BlockId} {rest : List BlockId} (h : Adds b gs w g l.bench.graph)
    (hw : w.Perm (c :: rest)) {Q : Unit → Lowering → Prop}
    (hQ : ∀ l', Adds b gs rest g l'.bench.graph → l'.loops = l.loops → Q () l') :
    Ends (liftM (Edit.addEdge c none d) : Lower Unit) l (fun _ => True) Q := by
  refine ends_addEdge_adds fun l₁ h₁ e₁ => ?_
  have hwait := h.waits (hw.mem_iff.2 List.mem_cons_self)
  have hadds := h.via hw h₁.toExtends fun hl _ =>
    ⟨0, by rw [h₁.own ((h₁.live_iff hwait.2.1).1 hl), hwait.2.2]; rfl⟩
  rw [List.append_nil] at hadds
  exact hQ l₁ hadds e₁

/-- What is no control flow. -/
theorem ends_quiet_adds {x : Lower α} (h : Adds b gs w g l.bench.graph)
    (hx : Keeps (fun l => (l.bench.graph.view fun y => (y.kind, y.guards), l.loops)) x)
    {Q : α → Lowering → Prop}
    (hQ : ∀ a l', Adds b gs w g l'.bench.graph → l'.loops = l.loops → Q a l') :
    Ends x l (fun _ => True) Q := by
  refine ends_quiet hx fun a l' hgrows hguards hl => hQ a l' ?_ hl
  have hnone : Adds b [] [] l.bench.graph l'.bench.graph := ⟨hgrows b, h.toExtends.known h.known,
    List.not_mem_nil, fun _ => by rw [hguards, List.append_nil]⟩
  have hadds := h.trans hnone
  rwa [List.append_nil, List.append_nil] at hadds

/-- Statements at a block that waits. -/
theorem Finishes.adds (hx : Finishes body) {c : BlockId} {rest : List BlockId}
    (h : Adds b gs w g l.bench.graph) (hw : w.Perm (c :: rest))
    {Q : BlockId → Lowering → Prop}
    (hQ : ∀ c' l' extra, Adds b gs (rest ++ c' :: extra) g l'.bench.graph →
      Finished c l extra c' l' → Q c' l') : Ends (body c) l (fun _ => True) Q := by
  have hwait := (h.waits (hw.mem_iff.2 List.mem_cons_self)).2
  refine (hx l c hwait.1 hwait.2).mono fun c' l' ⟨extra, hf⟩ => ?_
  exact hQ c' l' extra (h.via hw hf.grows fun hl hm =>
    hf.first ((hf.grows.live_iff hwait.1).1 hl) hm) hf

/-- Nothing has been added yet. -/
theorem adds_nil (hk : g.kind? b ≠ none) : Adds b [] [] g g :=
  ⟨.of_same b (fun _ => rfl) fun _ => rfl, hk, List.not_mem_nil, fun _ => (List.append_nil _).symm⟩

/-! ## 6. Statements without control flow, and jumps -/

theorem finishes_quiet {x : BlockId → Lower BlockId}
    (hx : ∀ b, Keeps (fun l => (l.bench.graph.view fun y => (y.kind, y.guards), l.loops)) (x b))
    (hsame : ∀ b l, Ends (x b) l (fun _ => True) fun b' _ => b' = b) : Finishes x := by
  intro l b hk hg
  refine (ends_quiet (Q := fun _ l' => Finished b l [] b l') (hx b)
    fun _ l' hgrows hguards hl => ?_).imp fun b' l' run h => ?_
  · have hrefl := Finished.refl (l := l') ((hgrows b).known hk) ((hguards b).trans hg)
    refine ⟨?_, fun _ hm => absurd List.mem_cons_self hm, ?_, fun _ => rfl⟩
    · exact (hgrows b).trans hrefl.grows (.inl rfl) (by simp) .nil fun hn => absurd hn hk
    · rw [hl, withBreaks_nil]
  · obtain rfl : b' = b := (hsame b l).of_ok run
    exact ⟨[], h⟩

/-- A new dead block to go on in. -/
theorem ends_deadBlock_adds (h : Adds b gs w g l.bench.graph) {Q : BlockId → Lowering → Prop}
    (hQ : ∀ c l', Adds b gs (w ++ [c]) g l'.bench.graph → l'.loops = l.loops → Q c l') :
    Ends deadBlock l (fun _ => True) Q := by
  unfold deadBlock
  rw [Ends.bind_iff]
  refine ends_freshLabel fun label n => ?_
  rw [Ends.bind_iff]
  refine ends_addBlock_adds (l := { l with nextLabel := n }) h fun c l₁ h₁ e₁ => ?_
  rw [Ends.bind_iff]
  exact ends_quiet_adds h₁ (quiet.sealBlock c) fun _ l₂ h₂ e₂ => hQ c l₂ h₂ (e₂.trans e₁)

/-- A block that leaves the loop waits until the loop is closed. -/
theorem finishes_breakLoop : Finishes breakLoop := by
  intro l b hk hg
  refine ends_breakLoop (fun _ => trivial) (fun _ => trivial) (fun y f rest hy hlive hloops => ?_)
    fun y hy hdead _ => ?_
  · have hl : l.bench.graph.kind? b = some .live := (Graph.live_iff hy).2 hlive
    refine ends_deadBlock_adds
      (l := { l with loops := { f with breaks := f.breaks ++ [b] } :: rest })
      (adds_nil hk) fun c l₁ h₁ e₁ => ?_
    have hc : c ≠ b := fun e => h₁.apart (e ▸ List.mem_cons_self)
    refine ⟨[b], ⟨h₁.kind, h₁.guards, fun {a} ha => ?_, ?_, fun hn hl ha => ?_⟩, fun _ hm => ?_,
      by rw [e₁, hloops]; rfl, fun he => by rw [hloops] at he; cases he⟩
    · rcases List.mem_cons.1 ha with rfl | ha
      · exact h₁.waits List.mem_cons_self
      · rw [List.mem_singleton.1 ha]
        exact ⟨.inl rfl, h₁.toExtends.known hk, (h₁.own hl).trans (by rw [List.append_nil, hg])⟩
    · simpa using hc
    · exact h₁.ended hn hl fun hm => ha (List.mem_cons.2 (.inl (List.mem_singleton.1 hm)))
    · exact absurd (List.mem_cons_of_mem _ List.mem_cons_self) hm
  · refine ends_deadBlock_adds (adds_nil hk) fun c l₁ h₁ e₁ => ?_
    refine ⟨[], h₁.toExtends, fun hl => ?_, by rw [e₁, withBreaks_nil], fun _ => rfl⟩
    rw [(Graph.live_iff hy).1 hl] at hdead
    cases hdead

theorem finishes_continueLoop (ha : Finishes advance) : Finishes (continueLoop advance) := by
  intro l b hk hg
  refine ends_continueLoop (fun _ => trivial) fun f rest _ => ?_
  refine (ha l b hk hg).mono fun last l₁ ⟨extra, h₁⟩ => ?_
  refine ends_addEdge_adds fun l₂ h₂ e₂ => ?_
  refine ends_deadBlock_adds h₂ fun c l₃ h₃ e₃ => ⟨extra ++ [], h₁.trans hk ?_⟩
  exact .of_adds (n := 0) h₃ h₁.next.2 (by rw [e₃, e₂, withBreaks_nil]) fun _ => rfl

/-! ## 7. Conditionals -/

/-- **An arm** gives its block one jump, and leaves no block behind that waits, but for those that
    leave the innermost loop. -/
theorem ends_arm_adds (hbody : Finishes body) (h : Adds b gs w g l.bench.graph) {label : String}
    {join : BlockId} {cond : Option Operand} {isEmpty : Bool} :
    Ends (arm label b join cond isEmpty body) l (fun _ => True) fun _ l' => ∃ extra,
      Adds b (gs ++ [cond.isSome]) (w ++ extra) g l'.bench.graph ∧
        l'.loops = withBreaks extra l.loops ∧ (l.loops = [] → extra = []) := by
  unfold arm
  split
  · refine ends_addEdge_adds fun l₁ h₁ e₁ => ⟨[], h.trans h₁, ?_, fun _ => rfl⟩
    rw [e₁, withBreaks_nil]
  · rw [Ends.bind_iff]
    refine ends_newBlock_adds h fun first l₁ h₁ e₁ => ?_
    rw [Ends.bind_iff]
    refine ends_addEdge_adds fun l₂ h₂ e₂ => ?_
    rw [Ends.bind_iff]
    refine ends_quiet_adds (h₁.trans h₂) (quiet.sealBlock first) fun _ l₃ h₃ e₃ => ?_
    rw [Ends.bind_iff]
    have hfirst : (w ++ [first] ++ []).Perm (first :: w) := by
      rw [List.append_nil]
      exact List.perm_append_singleton first w
    refine hbody.adds h₃ hfirst fun last l₄ extra h₄ hf => ?_
    refine ends_default h₄ List.perm_middle fun l₅ h₅ e₅ => ⟨extra, h₅, ?_, fun hn => ?_⟩
    · rw [e₅, hf.loops, e₃, e₂, e₁]
    · exact hf.outside (by rw [e₃, e₂, e₁, hn])

/-- The join of a conditional, which may be declared dead. -/
theorem ends_sealJoin_adds {join : BlockId} (h : Adds b gs w g l.bench.graph) (hj : join ∈ w) :
    Ends (sealJoin join) l (fun _ => True) fun _ l' =>
      Adds b gs w g l'.bench.graph ∧ l'.loops = l.loops := by
  unfold sealJoin
  rw [Ends.bind_iff, ends_edit]
  refine Edit.ends_block_or trivial fun y hy => ?_
  split
  · rw [Ends.bind_iff, ends_edit, Edit.ends_updateBlock hy]
    exact ends_quiet_adds
      (l := { l with bench := { l.bench with graph := l.bench.graph.withDead join } })
      (h.withDead hy hj) (quiet.sealBlock join) fun _ _ h₁ e₁ => ⟨h₁, e₁⟩
  · exact ends_quiet_adds h (quiet.sealBlock join) fun _ _ h₁ e₁ => ⟨h₁, e₁⟩

/-! ## 8. Loops -/

/-- The edges from the places that leave a loop: they wait no more. -/
theorem ends_joinBreaks_adds {exit : BlockId} {breaks : List BlockId}
    (h : Adds b gs (w ++ breaks) g l.bench.graph) {Q : Unit → Lowering → Prop}
    (hQ : ∀ l', Adds b gs w g l'.bench.graph → l'.loops = l.loops → Q () l') :
    Ends (joinBreaks exit breaks) l (fun _ => True) Q := by
  induction breaks generalizing l with
  | nil => exact hQ l (by rwa [List.append_nil] at h) rfl
  | cons q qs ih =>
    show Ends (liftM (Edit.addEdge q none exit) >>= fun _ => joinBreaks exit qs) l _ _
    rw [Ends.bind_iff]
    refine ends_default h List.perm_middle fun l₁ h₁ e₁ => ?_
    exact ih h₁ fun l₂ h₂ e₂ => hQ l₂ h₂ (e₂.trans e₁)

/-- The condition block of a loop gets all its jumps at once. -/
theorem ends_loopTest_adds {label : String} {cond : Expr} {known : Option Bool}
    {head first : BlockId} (h : Adds b gs [first, head] g l.bench.graph) :
    Ends (loopTest label cond known head first) l (fun _ => True) fun exit? l' =>
      Adds b gs (first :: exit?.toList) g l'.bench.graph ∧ l'.loops = l.loops := by
  have hhead := (h.waits (List.mem_cons_of_mem _ List.mem_cons_self)).2
  unfold loopTest
  split
  · rw [Ends.bind_iff]
    exact ends_default h (List.Perm.swap ..) fun l₁ h₁ e₁ => ⟨h₁, e₁⟩
  · rw [Ends.bind_iff]
    refine ends_newBlock_adds h fun exit l₁ h₁ e₁ => ?_
    rw [Ends.bind_iff]
    refine ends_quiet_adds h₁ (quiet.enter head) fun _ l₂ h₂ e₂ => ?_
    rw [Ends.bind_iff]
    refine ends_quiet_adds h₂ (quiet.storing.lowerCondition cond) fun c l₃ h₃ e₃ => ?_
    rw [Ends.bind_iff]
    refine ends_addEdge_adds fun l₄ h₄ e₄ => ?_
    rw [Ends.bind_iff]
    refine ends_addEdge_adds fun l₅ h₅ e₅ => ?_
    -- both jumps of the head are one part
    have hwait := h₃.waits (c := head) (by simp)
    have hjumps := h₄.trans h₅
    refine ⟨?_, by rw [e₅, e₄, e₃, e₂, e₁]⟩
    exact h₃.via (List.Perm.swap ..) hjumps.toExtends fun hl _ =>
      ⟨1, by rw [hjumps.own ((hjumps.live_iff hwait.2.1).1 hl), hwait.2.2]; rfl⟩

/-- **The block behind a loop** is the only one that waits when the loop is closed. -/
theorem ends_loopExit_adds {f : LoopFrame} {exit? : Option BlockId}
    (h : Adds b gs (exit?.toList ++ f.breaks) g l.bench.graph) :
    Ends (loopExit f exit?) l (fun _ => True) fun exit l' =>
      Adds b gs [exit] g l'.bench.graph ∧ l'.loops = l.loops := by
  cases exit? with
  | some exit =>
    unfold loopExit
    rw [Ends.bind_iff]
    refine ends_joinBreaks_adds h fun l₁ h₁ e₁ => ?_
    rw [Ends.bind_iff]
    exact ends_quiet_adds h₁ (quiet.sealBlock f.head) fun _ _ h₂ e₂ => ⟨h₂, e₂.trans e₁⟩
  | none =>
    unfold loopExit
    rw [Ends.bind_iff]
    refine ends_quiet_adds h (quiet.sealBlock f.head) fun _ l₁ h₁ e₁ => ?_
    split
    · rename_i hempty
      refine ends_addBlock_adds h₁ fun c l₂ h₂ e₂ => ⟨?_, e₂.trans e₁⟩
      rwa [List.isEmpty_iff.1 hempty] at h₂
    · rw [Ends.bind_iff]
      refine ends_newBlock_adds h₁ fun exit l₂ h₂ e₂ => ?_
      rw [Ends.bind_iff]
      refine ends_joinBreaks_adds (w := [exit]) (h₂.perm (List.perm_append_comm ..))
        fun l₃ h₃ e₃ => ⟨h₃, ?_⟩
      rw [e₃, e₂, e₁]

theorem finishes_loop (hbody : Finishes body) (ha : Finishes advance) (construct : String)
    (cond : Expr) (step : List Stmt) : Finishes (loop construct cond step body advance) := by
  intro l b hk hg
  unfold loop
  rw [Ends.bind_iff]
  refine ends_knownCondition ?_
  split
  · exact ⟨[], .refl hk hg⟩
  rw [Ends.bind_iff]
  refine ends_freshLabel fun label n => ?_
  rw [Ends.bind_iff]
  refine ends_newBlock_adds (l := { l with nextLabel := n }) (adds_nil hk)
    fun head l₁ h₁ e₁ => ?_
  rw [Ends.bind_iff]
  refine ends_newBlock_adds h₁ fun first l₂ h₂ e₂ => ?_
  rw [Ends.bind_iff]
  refine ends_addEdge_adds fun l₃ h₃ e₃ => ?_
  rw [Ends.bind_iff]
  refine (ends_loopTest_adds ((h₂.trans h₃).perm (List.Perm.swap ..))).mono
    fun exit? l₄ ⟨h₄, e₄⟩ => ?_
  rw [Ends.bind_iff]
  refine ends_quiet_adds h₄ (quiet.sealBlock first) fun _ l₅ h₅ e₅ => ?_
  rw [Ends.bind_iff]
  refine ends_pushLoop ?_
  rw [Ends.bind_iff]
  refine hbody.adds (l := { l₅ with loops := ⟨label, head, [], step⟩ :: l₅.loops }) h₅ (.refl _)
    fun last l₆ extra h₆ hf => ?_
  rw [Ends.bind_iff]
  refine ha.adds h₆ List.perm_middle fun last l₇ extra' h₇ hf' => ?_
  -- the frame of the loop has got the breaks of body and step
  have hloops : l₇.loops = ⟨label, head, extra ++ extra', step⟩ :: l.loops := by
    rw [hf'.loops, hf.loops, withBreaks_append]
    show (LoopFrame.mk label head ([] ++ (extra ++ extra')) step) :: l₅.loops = _
    rw [e₅, e₄, e₃, e₂, e₁, List.nil_append]
  rw [Ends.bind_iff]
  refine ends_popLoop (fun _ => trivial) fun f rest hl => ?_
  obtain ⟨rfl, rfl⟩ := List.cons.inj (hloops.symm.trans hl)
  rw [Ends.bind_iff]
  refine ends_default (l := { l₇ with loops := l.loops }) h₇ List.perm_middle
    fun l₈ h₈ e₈ => ?_
  rw [Ends.bind_iff]
  refine (ends_loopExit_adds (h₈.perm (.of_eq (List.append_assoc ..)))).mono
    fun exit l₉ ⟨h₉, e₉⟩ => ?_
  rw [Ends.bind_iff]
  refine ends_quiet_adds h₉ (quiet.sealBlock exit) fun _ l' h' e' => ⟨[], ?_⟩
  refine .of_adds (n := 0) h' hg ?_ fun _ => rfl
  rw [e', e₉, e₈, withBreaks_nil]

/-! ## 9. All statements -/

mutual

/-- **A statement leaves no block behind that waits for jumps.** -/
theorem finishes_lowerStmt (p : Program) (s : Stmt) {advance : BlockId → Lower BlockId}
    (ha : Finishes advance) : Finishes (lowerStmt p advance s) := by
  match s with
  | .assign x ss e =>
    intro l b
    rw [lowerStmt]
    exact finishes_quiet (quiet.storing.assign x ss e) (ends_assign_here x ss e) l b
  | .read q x =>
    intro l b
    rw [lowerStmt]
    exact finishes_quiet (quiet.storing.portRead p q x) (ends_portRead_here p q x) l b
  | .write q e =>
    intro l b
    rw [lowerStmt]
    exact finishes_quiet (quiet.storing.portWrite p q e) (ends_portWrite_here p q e) l b
  | .branch arms otherwise =>
    intro l b hk hg
    rw [lowerStmt, Ends.bind_iff]
    refine ends_freshLabel fun label n => ?_
    rw [Ends.bind_iff]
    refine ends_newBlock_adds (l := { l with nextLabel := n }) (adds_nil hk)
      fun join l₁ h₁ e₁ => ?_
    rw [Ends.bind_iff]
    refine (finishes_lowerArms p arms ha h₁).mono fun closed l₂ ⟨m, extra, h₂, e₂, ho₂⟩ => ?_
    -- what is left to do once the block has its last jump
    have hjoin : ∀ l₃ extra', Adds b (List.replicate m true ++ [false]) ([join] ++ extra')
        l.bench.graph l₃.bench.graph → l₃.loops = withBreaks extra' l.loops →
        (l.loops = [] → extra' = []) →
        Ends (do
          sealJoin join
          Pure.pure join) l₃ (fun _ => True) fun b' l' => ∃ extra, Finished b l extra b' l' := by
      intro l₃ extra' h₃ e₃ ho₃
      rw [Ends.bind_iff]
      refine (ends_sealJoin_adds h₃ List.mem_cons_self).mono fun _ l₄ ⟨h₄, e₄⟩ => ?_
      exact ⟨extra', .of_adds h₄ hg (e₄.trans e₃) ho₃⟩
    dsimp only
    split
    · rename_i hopen
      obtain rfl : closed = false := by simpa using hopen
      rw [Ends.bind_iff]
      refine (ends_arm_adds (finishes_lowerStmts p otherwise ha) h₂).mono
        fun _ l₃ ⟨extra', h₃, e₃, ho₃⟩ => hjoin l₃ (extra ++ extra') ?_ ?_ fun hn => ?_
      · simpa using h₃
      · rw [e₃, e₂, e₁, withBreaks_append]
      · rw [ho₂ (e₁.trans hn), ho₃ (by rw [e₂, e₁, hn]; rfl)]
        rfl
    · rename_i hclosed
      obtain rfl : closed = true := by simpa using hclosed
      exact hjoin l₂ extra h₂ (e₂.trans (by rw [e₁])) fun hn => ho₂ (e₁.trans hn)
  | .whileLoop cond body =>
    intro l b
    rw [lowerStmt]
    exact finishes_loop (finishes_lowerStmts p body Finishes.pure) Finishes.pure _ _ _ l b
  | .forLoop init cond step body =>
    intro l b hk hg
    rw [lowerStmt]
    have hstep := finishes_lowerStmts p step Finishes.pure
    rw [Ends.bind_iff]
    refine (finishes_lowerStmts p init ha l b hk hg).mono fun start l₁ ⟨extra, h₁⟩ => ?_
    refine (finishes_loop (finishes_lowerStmts p body hstep) hstep _ _ _ l₁ start h₁.next.1
      h₁.next.2).mono fun exit l₂ ⟨extra', h₂⟩ => ?_
    exact ⟨_, h₁.trans hk h₂⟩
  | .breakLoop =>
    intro l b
    rw [lowerStmt]
    exact finishes_breakLoop l b
  | .continueLoop =>
    intro l b
    rw [lowerStmt]
    exact finishes_continueLoop ha l b

/-- **Statements leave no block behind that waits for jumps.** -/
theorem finishes_lowerStmts (p : Program) (ss : List Stmt) {advance : BlockId → Lower BlockId}
    (ha : Finishes advance) : Finishes (lowerStmts p advance ss) := by
  match ss with
  | [] =>
    intro l b
    rw [lowerStmts]
    exact Finishes.pure l b
  | s :: ss =>
    intro l b hk hg
    rw [lowerStmts, Ends.bind_iff]
    refine (finishes_lowerStmt p s ha l b hk hg).mono fun next l₁ ⟨extra, h₁⟩ => ?_
    refine (finishes_lowerStmts p ss ha l₁ next h₁.next.1 h₁.next.2).mono
      fun b' l₂ ⟨extra', h₂⟩ => ?_
    exact ⟨_, h₁.trans hk h₂⟩

/-- **The arms of a conditional** give its block conditional jumps, and one that is always taken if
    an arm is. -/
theorem finishes_lowerArms (p : Program) (arms : List (Expr × List Stmt))
    {advance : BlockId → Lower BlockId} (ha : Finishes advance) {l : Lowering} {b : BlockId}
    {gs : List Bool} {w : List BlockId} {g : Graph} (h : Adds b gs w g l.bench.graph)
    {label : String} {join : BlockId} {i : Nat} :
    Ends (lowerArms p advance label b join i arms) l (fun _ => True) fun closed l' =>
      ∃ n extra, Adds b (gs ++ (List.replicate n true ++ if closed then [false] else [])) (w ++ extra) g
        l'.bench.graph ∧ l'.loops = withBreaks extra l.loops ∧ (l.loops = [] → extra = []) := by
  match arms with
  | [] =>
    rw [lowerArms]
    refine ⟨0, [], ?_, (withBreaks_nil _).symm, fun _ => rfl⟩
    simpa using h
  | (cond, body) :: rest =>
    have hbody := finishes_lowerStmts p body ha
    rw [lowerArms, Ends.bind_iff]
    refine ends_knownCondition ?_
    dsimp only
    split
    · exact finishes_lowerArms p rest ha h
    split
    · -- the arm is always taken
      rw [Ends.bind_iff, Ends.pure_iff, Ends.bind_iff]
      refine (ends_arm_adds hbody h).mono fun _ l₁ ⟨extra, h₁, e₁, ho₁⟩ => ?_
      exact ⟨0, extra, h₁, e₁, ho₁⟩
    · rw [Ends.bind_iff]
      refine ends_quiet_adds h (quiet.enter b) fun _ l₁ h₁ e₁ => ?_
      rw [Ends.bind_iff]
      refine ends_quiet_adds h₁ (quiet.storing.lowerCondition cond) fun c l₂ h₂ e₂ => ?_
      rw [Ends.bind_iff, Ends.pure_iff, Ends.bind_iff]
      refine (ends_arm_adds hbody h₂).mono fun _ l₃ ⟨extra, h₃, e₃, ho₃⟩ => ?_
      refine (finishes_lowerArms p rest ha h₃).mono fun closed l₄ ⟨n, extra', h₄, e₄, ho₄⟩ => ?_
      refine ⟨n + 1, extra ++ extra', ?_, ?_, fun hn => ?_⟩
      · rw [List.append_assoc, List.append_assoc] at h₄
        exact h₄
      · rw [e₄, e₃, e₂, e₁, withBreaks_append]
      · have hnone : l₂.loops = [] := by rw [e₂, e₁, hn]
        rw [ho₃ hnone, ho₄ (by rw [e₃, hnone]; rfl)]
        rfl

end

end Control

/-! ## 10. Programs -/

/-- **In a lowered program only the last block waits for jumps.** -/
theorem finished_program {p : Program} {s : Settings} {b : BlockId} {l : Lowering}
    (run : (program p).run (.start p s) = .ok b l) :
    l.bench.graph.exit = some b ∧ l.bench.graph.guards b = [] ∧
      ∀ c, l.bench.graph.kind? c = some .live → c ≠ b → l.bench.graph.Ended c := by
  refine Ends.of_ok (R := fun _ => True) (Q := fun b l => l.bench.graph.exit = some b ∧
    l.bench.graph.guards b = [] ∧
      ∀ c, l.bench.graph.kind? c = some .live → c ≠ b → l.bench.graph.Ended c) ?_ run
  -- at the start there is the entry alone
  have hentry : (Lowering.start p s).bench.graph.kind? ⟨0⟩ ≠ none := Option.some_ne_none _
  have hothers : ∀ c, c ≠ ⟨0⟩ → (Lowering.start p s).bench.graph.kind? c = none := by
    rintro ⟨_ | n⟩ hc
    · exact absurd rfl hc
    · rfl
  have hbody : ∀ l₁ : Lowering, Adds ⟨0⟩ [] [] (Lowering.start p s).bench.graph l₁.bench.graph →
      l₁.loops = [] → Ends (do
        let exit ← lowerStmts p (innermostAdvance p (← get).loops) p.body ⟨0⟩
        (Build.onGraph (modify fun g => { g with exit := some exit }) : Lower Unit)
        Pure.pure exit) l₁ (fun _ => True) fun b l => l.bench.graph.exit = some b ∧
          l.bench.graph.guards b = [] ∧
            ∀ c, l.bench.graph.kind? c = some .live → c ≠ b → l.bench.graph.Ended c := by
    intro l₁ h₁ e₁
    rw [Ends.bind_iff, Ends.get_iff, Ends.bind_iff, e₁]
    refine (finishes_lowerStmts p p.body Finishes.pure l₁ ⟨0⟩ (h₁.toExtends.known hentry)
      (h₁.own rfl)).mono fun b l₂ ⟨extra, hf⟩ => ?_
    have hextra := hf.outside e₁
    subst hextra
    have hgrows := h₁.toExtends.trans hf.grows (.inl rfl) (by simp) .nil
      fun hn => absurd hn hentry
    refine ⟨rfl, hf.next.2, fun c hl hc => ?_⟩
    by_cases e : c = ⟨0⟩
    · subst e
      exact hf.first (h₁.kind rfl) (by simpa using hc)
    · exact hgrows.ended (hothers c e) hl (by simpa using hc)
  unfold program
  rw [Ends.bind_iff, Ends.get_iff, Ends.bind_iff, ends_edit]
  refine Edit.ends_block_or trivial fun y hy => ?_
  dsimp only
  split
  · rw [Ends.bind_iff]
    exact ends_quiet_adds (adds_nil hentry) (quiet.sealBlock _) fun _ l₁ h₁ e₁ => hbody l₁ h₁ e₁
  · exact hbody _ (adds_nil hentry) rfl

end Lower

/-- **Every live block of a lowered program has a complete terminator**: the exit has no jump, and
    every other one has conditional jumps and then one that is always taken. So there is always a
    jump to take, and none stands behind one that is always taken. -/
theorem Program.terminated_lower {p : Program} {s : Settings} {r : Lowered}
    (h : p.lower s = .ok r) {b : BlockId} {y : Block} (hb : r.graph.block? b = some y)
    (hlive : y.kind = .live) :
    (r.graph.exit = some b → y.branches = []) ∧ (r.graph.exit ≠ some b → y.Terminated ∧
      (∀ holds, (y.taken holds).isSome = true) ∧ ∀ before br after,
        y.branches = before ++ br :: after → br.cond = none → after = []) := by
  obtain ⟨e, l, run, hr⟩ := Program.run_of_lower h
  subst hr
  obtain ⟨hexit, hlast, hended⟩ := Lower.finished_program run
  have hguards : l.bench.graph.guards b = y.guards := Graph.guards_of_block? hb
  constructor
  · intro he
    rw [Option.some.inj (hexit.symm.trans he), hguards] at hlast
    exact List.map_eq_nil_iff.1 hlast
  · intro he
    obtain ⟨n, hn⟩ := hended b ((Graph.kind?_of_block? hb).trans (congrArg some hlive))
      fun e' => he (e' ▸ hexit)
    have hy : y.Terminated := Block.terminated_of_guards (hguards.symm.trans hn)
    exact ⟨hy, hy.taken_isSome, fun _ _ _ => hy.last_of_always⟩

/-- The head of the loop in `doubling` has a test and then a jump that is always taken. -/
theorem terminated_doubling : ∃ r y, doubling.lower Preset.fast.settings = .ok r ∧
    r.graph.block? ⟨1⟩ = some y ∧ y.branches.length = 2 ∧ y.Terminated := by
  have hrun : (doubling.lower Preset.fast.settings).toOption.any (fun r =>
      r.graph.exit ≠ some ⟨1⟩ && (r.graph.block? ⟨1⟩).any fun y =>
        y.kind = .live && y.branches.length = 2) = true := by decide +kernel
  cases hr : doubling.lower Preset.fast.settings with
  | error e =>
    rw [hr] at hrun
    cases hrun
  | ok r =>
    rw [hr] at hrun
    have hrun : (r.graph.exit ≠ some ⟨1⟩ && (r.graph.block? ⟨1⟩).any fun y =>
        y.kind = .live && y.branches.length = 2) = true := hrun
    rw [Bool.and_eq_true, decide_eq_true_eq, Option.any_eq_true] at hrun
    obtain ⟨hexit, y, hy, hlive⟩ := hrun
    rw [Bool.and_eq_true, decide_eq_true_eq, decide_eq_true_eq] at hlive
    exact ⟨r, y, rfl, hy, hlive.2, ((Program.terminated_lower hr hy hlive.1).2 hexit).1⟩

end BitFlow
