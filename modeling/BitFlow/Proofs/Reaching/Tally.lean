import BitFlow.Proofs.Action.Name
import BitFlow.Proofs.Build.Provision
import BitFlow.Proofs.Graph.Survey
import BitFlow.Proofs.Reaching.Quiet

/-!
# How phis are counted

The tables count the phis that are made, removed, and filled when their block is sealed. A phi is
counted where it is made and where it leaves its block, and by nothing else that happens to it, so
the counts are those of the phis that are in the graph. A phi that waits has been made and is not
filled yet; it leaves the waiting list before it is filled, and counts as filled afterwards, so for
a while it is on neither side.

`Tracked.Tallied owed` says this of graph and tables while `owed` phis are on neither side. It holds
at faults too, whatever the graph and wherever a cascade of removals is cut short.

Main statements: `Track.tallied_read`, `Track.tallied_sealBlock`.
-/

namespace BitFlow

/-! ## 1. The size of a finite relation -/

theorem Ranked.length_insert_le {α : Type} [Ranked α] [DecidableEq α] (a : α) (as : List α) :
    (Ranked.insert a as).length ≤ as.length + 1 := by
  induction as with
  | nil => exact Nat.le_refl _
  | cons b bs ih =>
    unfold Ranked.insert
    split
    · exact Nat.le_succ _
    · split
      · exact Nat.le_refl _
      · exact Nat.succ_le_succ ih

namespace Multimap

variable {κ α : Type}

/-- The number of pairs of the relation. -/
def size (m : Multimap κ α) : Nat := m.table.pairs.foldr (fun p n => p.2.length + n) 0

variable [DecidableEq κ]

/-- Without a key there are fewer pairs by those of the key. -/
theorem size_drop_le (m : Multimap κ α) (k : κ) :
    (m.drop k).size + (m.image k).length ≤ m.size := by
  obtain ⟨⟨ps⟩⟩ := m
  show (ps.filter fun p => p.1 ≠ k).foldr (fun p n => p.2.length + n) 0 +
    ((ps.lookup k).getD []).length ≤ ps.foldr (fun p n => p.2.length + n) 0
  induction ps with
  | nil => exact Nat.le_refl _
  | cons p ps ih =>
    obtain ⟨k', as⟩ := p
    rw [List.lookup_cons, List.foldr_cons]
    by_cases e : k = k'
    · subst e
      rw [List.filter_cons_of_neg (by simp), beq_self_eq_true]
      dsimp only [Option.getD_some]
      omega
    · have hne : (k == k') = false := beq_eq_false_iff_ne.2 e
      rw [List.filter_cons_of_pos (by simpa using Ne.symm e), List.foldr_cons, hne]
      dsimp only
      omega

theorem size_setImage_le (m : Multimap κ α) (k : κ) (as : List α) :
    (m.setImage k as).size + (m.image k).length ≤ m.size + as.length := by
  have hdrop := m.size_drop_le k
  cases as with
  | nil => exact hdrop
  | cons a as =>
    have hset : (m.setImage k (a :: as)).size = (a :: as).length + (m.drop k).size := rfl
    omega

variable [DecidableEq α]

theorem size_add_le [Ranked α] (m : Multimap κ α) (k : κ) (a : α) :
    (m.add k a).size ≤ m.size + 1 := by
  have hset := m.size_setImage_le k (Ranked.insert a (m.image k))
  have hinsert := Ranked.length_insert_le a (m.image k)
  unfold add
  omega

/-- One pair less. -/
theorem size_remove_lt {m : Multimap κ α} {k : κ} {a : α} (h : a ∈ m.image k) :
    (m.remove k a).size < m.size := by
  have hset := m.size_setImage_le k ((m.image k).filter fun b => b ≠ a)
  have hless : ((m.image k).filter fun b => b ≠ a).length < (m.image k).length :=
    List.length_filter_lt_length_iff_exists.2 ⟨a, h, by simp⟩
  unfold remove
  omega

end Multimap

/-! ## 2. Phis of a graph -/

/-- Whether a value is a phi, and whether some block lists it. -/
def Value.role (x : Value) : Bool × Bool := (x.isPhi, x.isAttached)

theorem Value.overlooks_role : Value.Overlooks Value.role :=
  ⟨fun _ _ h => Prod.ext h rfl, fun _ _ => rfl⟩

namespace Graph

/-- All phis of the graph, those that were removed included. -/
def phis (g : Graph) : List Value := g.values.toList.filter Value.isPhi

/-- The phis that no block lists any more. -/
def detachedPhis (g : Graph) : List Value := g.phis.filter fun x => !x.isAttached

/-- The role of each value. -/
abbrev roles (g : Graph) : List (Bool × Bool) := g.survey Value.role

theorem length_phis (g : Graph) : g.phis.length = g.roles.countP Prod.fst := by
  unfold roles survey
  rw [List.countP_map, List.countP_eq_length_filter]
  rfl

theorem length_detachedPhis (g : Graph) :
    g.detachedPhis.length = g.roles.countP fun r => r.1 && !r.2 := by
  unfold roles survey detachedPhis phis
  rw [List.countP_map, List.countP_eq_length_filter, List.filter_filter]
  exact congrArg List.length (List.filter_congr fun _ _ => Bool.and_comm _ _)

/-- A phi is attached or detached. -/
theorem length_attachedPhis_add_detachedPhis (g : Graph) :
    g.attachedPhis.length + g.detachedPhis.length = g.phis.length := by
  have hattached : g.attachedPhis = g.phis.filter Value.isAttached := by
    simp only [attachedPhis, attached, phis, List.filter_filter, Bool.and_comm]
  rw [hattached]
  exact (List.length_eq_length_filter_add Value.isAttached).symm

/-- The graph has an attached phi of that name. -/
def HasPhi (g : Graph) (v : ValueId) : Prop := g.roles[v.index]? = some (true, true)

theorem hasPhi_iff {g : Graph} {v : ValueId} :
    g.HasPhi v ↔ ∃ x, g.value? v = some x ∧ x.isPhi = true ∧ x.isAttached = true := by
  unfold HasPhi
  rw [getElem?_survey, Option.map_eq_some_iff]
  exact exists_congr fun x => and_congr_right fun _ => Prod.ext_iff

end Graph

/-! ## 3. The tally -/

/-- **The counts are those of the phis of the graph**, and a phi counts as filled or waits, except
    for `owed` of them. Waiting phis are known, each stands on the list of a block once, and those
    in `due` still wait. -/
structure Tracked.Tallied (owed : Nat) (due : BlockId → VarId × ValueId → Prop) (s : Tracked) :
    Prop where
  created : s.reaching.stats.created = s.graph.phis.length
  removed : s.reaching.stats.removed = s.graph.detachedPhis.length
  completed : s.reaching.stats.completed + s.reaching.pending.size + owed ≤
    s.reaching.stats.created
  known : ∀ {b q}, q ∈ s.reaching.pending.image b → q.2.index < s.graph.values.size
  nodup : ∀ b, (s.reaching.pending.image b).Nodup
  waits : ∀ {b q}, due b q → q ∈ s.reaching.pending.image b

/-- A name is no part of a role, -/
theorem Tracked.roles_christened (x : VarId) (o : Operand) (s : Tracked) :
    (s.christened x o).graph.roles = s.graph.roles := by
  obtain e | ⟨v, name, versions, e⟩ := s.christened_cases x o
  · rw [e]
  · rw [e]
    exact Graph.survey_updateValue fun _ _ => rfl

/-- and nothing that is counted. -/
theorem Tracked.counts_christened (x : VarId) (o : Operand) (s : Tracked) :
    (s.christened x o).reaching.stats = s.reaching.stats ∧
      (s.christened x o).reaching.pending = s.reaching.pending := by
  obtain e | ⟨v, name, versions, e⟩ := s.christened_cases x o <;> rw [e] <;> exact ⟨rfl, rfl⟩

namespace Tracked.Tallied

variable {n : Nat} {D : BlockId → VarId × ValueId → Prop} {s : Tracked} {b : BlockId}
  {q : VarId × ValueId} {v : ValueId}

/-- Of the graph only the roles of its values count. -/
theorem onGraph (h : s.Tallied n D) {g : Graph} (hg : g.roles = s.graph.roles) :
    Tallied n D ⟨g, s.reaching⟩ := by
  have hsize := congrArg List.length hg
  rw [Graph.length_survey, Graph.length_survey] at hsize
  refine ⟨?_, ?_, h.completed, fun hq => hsize ▸ h.known hq, h.nodup, h.waits⟩
  · rw [Graph.length_phis, hg, ← Graph.length_phis]
    exact h.created
  · rw [Graph.length_detachedPhis, hg, ← Graph.length_detachedPhis]
    exact h.removed

/-- Of the tables only the counts and the waiting lists do. -/
theorem onTables (h : s.Tallied n D) {r : Reaching} (hstats : r.stats = s.reaching.stats)
    (hpending : r.pending = s.reaching.pending) : Tallied n D ⟨s.graph, r⟩ := by
  obtain ⟨vars, defs, holders, pending, filling, nameValues, versions, stats⟩ := r
  subst hstats hpending
  exact ⟨h.created, h.removed, h.completed, h.known, h.nodup, h.waits⟩

theorem christened (h : s.Tallied n D) (x : VarId) (o : Operand) :
    (s.christened x o).Tallied n D :=
  (h.onGraph (s.roles_christened x o)).onTables (s.counts_christened x o).1
    (s.counts_christened x o).2

/-- What is owed need not be claimed. -/
theorem settle (h : s.Tallied (n + 1) D) : s.Tallied n D :=
  { h with completed := Nat.le_of_succ_le h.completed }

/-- **A new phi is counted**; it is owed, and it waits nowhere. -/
theorem withPhi (h : s.Tallied n D) (b : BlockId) (x : VarId) (ty : Ty) :
    Tallied (n + 1) D ⟨s.graph.withPhi b x ty, s.reaching.countCreated⟩ := by
  have hroles : (s.graph.withPhi b x ty).roles = s.graph.roles ++ [(true, true)] :=
    s.graph.survey_withPhi b x ty
  refine ⟨?_, ?_, Nat.succ_le_succ h.completed, fun hq => ?_, h.nodup, h.waits⟩
  · rw [Graph.length_phis, hroles, List.countP_append, ← Graph.length_phis]
    exact congrArg (· + 1) h.created
  · rw [Graph.length_detachedPhis, hroles, List.countP_append, ← Graph.length_detachedPhis]
    exact h.removed
  · rw [Graph.size_withPhi]
    exact Nat.lt_succ_of_lt (h.known hq)

/-- A new instruction is not counted. -/
theorem withInstr (h : s.Tallied n D) (b : BlockId) (place : Nat) (ty : Ty) (origin : Origin)
    (i : Instr) : Tallied n D ⟨s.graph.withInstr b place ty origin i, s.reaching⟩ := by
  have hroles : (s.graph.withInstr b place ty origin i).roles = s.graph.roles ++ [(false, true)] :=
    s.graph.survey_withInstr b place ty origin i
  refine ⟨?_, ?_, h.completed, fun hq => ?_, h.nodup, h.waits⟩
  · rw [Graph.length_phis, hroles, List.countP_append, ← Graph.length_phis]
    exact h.created
  · rw [Graph.length_detachedPhis, hroles, List.countP_append, ← Graph.length_detachedPhis]
    exact h.removed
  · rw [Graph.size_withInstr]
    exact Nat.lt_succ_of_lt (h.known hq)

/-- A phi that is not known yet waits nowhere. -/
theorem not_waits (h : s.Tallied n D) (c : BlockId) (y : VarId) :
    (y, s.graph.nextValue) ∉ s.reaching.pending.image c := fun hq =>
  Nat.lt_irrefl _ (h.known hq)

/-- **A phi leaves its block and is counted.** -/
theorem without (h : s.Tallied n D) (hv : s.graph.HasPhi v) {g : Graph}
    (hg : g.roles = s.graph.roles.set v.index (true, false)) :
    Tallied n D ⟨g, s.reaching.countRemoved⟩ := by
  have hlt : v.index < s.graph.roles.length := (List.getElem?_eq_some_iff.1 hv).1
  have hat : s.graph.roles[v.index] = (true, true) := (List.getElem?_eq_some_iff.1 hv).2
  have hsize := congrArg List.length hg
  rw [Graph.length_survey, List.length_set, Graph.length_survey] at hsize
  refine ⟨?_, ?_, h.completed, fun hq => hsize ▸ h.known hq, h.nodup, h.waits⟩
  · have hpos : 1 ≤ s.graph.roles.countP Prod.fst :=
      List.one_le_countP_iff.2 ⟨_, List.mem_of_getElem? hv, rfl⟩
    rw [Graph.length_phis, hg, List.countP_set hlt, hat]
    show s.reaching.stats.created = s.graph.roles.countP Prod.fst - 1 + 1
    rw [Nat.sub_add_cancel hpos, ← Graph.length_phis]
    exact h.created
  · rw [Graph.length_detachedPhis, hg, List.countP_set hlt, hat]
    show s.reaching.stats.removed + 1 = s.graph.roles.countP _ + 1
    rw [← Graph.length_detachedPhis, h.removed]

/-- **A phi that is owed joins a waiting list.** -/
theorem await (h : s.Tallied (n + 1) D) (hknown : q.2.index < s.graph.values.size)
    (hnew : q ∉ s.reaching.pending.image b) :
    Tallied n D ⟨s.graph, { s.reaching with pending := s.reaching.pending.add b q }⟩ := by
  have hmem : ∀ {c p}, p ∈ (s.reaching.pending.add b q).image c ↔
      (b = c ∧ p = q) ∨ p ∈ s.reaching.pending.image c := Multimap.mem_image_add _ _ _ _ _
  refine ⟨h.created, h.removed, ?_, fun hp => ?_, fun c => ?_, fun hp => hmem.2 (.inr (h.waits hp))⟩
  · have hsize := s.reaching.pending.size_add_le b q
    have hcount := h.completed
    show s.reaching.stats.completed + (s.reaching.pending.add b q).size + n ≤ _
    dsimp only
    omega
  · rcases hmem.1 hp with ⟨-, rfl⟩ | hp
    · exact hknown
    · exact h.known hp
  · show ((s.reaching.pending.add b q).image c).Nodup
    unfold Multimap.add
    rw [Multimap.image_setImage]
    split
    · exact Ranked.nodup_insert (h.nodup b) hnew
    · exact h.nodup c

/-- **A phi leaves a waiting list**, and is owed. -/
theorem unawait (h : s.Tallied n D) (hq : q ∈ s.reaching.pending.image b) :
    Tallied (n + 1) (fun c p => D c p ∧ ¬ (b = c ∧ p = q))
      ⟨s.graph, { s.reaching with pending := s.reaching.pending.remove b q }⟩ := by
  have hmem : ∀ {c p}, p ∈ (s.reaching.pending.remove b q).image c ↔
      p ∈ s.reaching.pending.image c ∧ ¬ (b = c ∧ p = q) := Multimap.mem_image_remove _ _ _ _ _
  refine ⟨h.created, h.removed, ?_, fun hp => h.known (hmem.1 hp).1, fun c => ?_,
    fun hp => hmem.2 ⟨h.waits hp.1, hp.2⟩⟩
  · have hsize := Multimap.size_remove_lt hq
    have hcount := h.completed
    show s.reaching.stats.completed + (s.reaching.pending.remove b q).size + (n + 1) ≤ _
    dsimp only
    omega
  · show ((s.reaching.pending.remove b q).image c).Nodup
    unfold Multimap.remove
    rw [Multimap.image_setImage]
    split
    · exact (h.nodup b).filter _
    · exact h.nodup c

/-- **A phi that is owed counts as filled.** -/
theorem complete (h : s.Tallied (n + 1) D) : Tallied n D ⟨s.graph, s.reaching.countCompleted⟩ := by
  refine ⟨h.created, h.removed, ?_, h.known, h.nodup, h.waits⟩
  have hcount := h.completed
  show s.reaching.stats.completed + 1 + s.reaching.pending.size + n ≤ s.reaching.stats.created
  omega

theorem mono (h : s.Tallied n D) {E : BlockId → VarId × ValueId → Prop}
    (hD : ∀ {b q}, E b q → D b q) : s.Tallied n E :=
  { h with waits := fun hq => h.waits (hD hq) }

end Tracked.Tallied

/-- Of the graph the tally sees the roles of the values. -/
theorem Tracked.surveys_tallied {n : Nat} {D : BlockId → VarId × ValueId → Prop} :
    Surveys Value.role (Tallied n D) where
  overlooks := Value.overlooks_role
  onGraph h hg := h.onGraph hg
  withInstr h := h.withInstr

/-! ## 4. Making and removing phis -/

namespace Track

variable {α : Type} {n : Nat} {D : BlockId → VarId × ValueId → Prop} {s : Tracked}

open Tracked (Tallied)

/-- **A new phi**, counted and christened, or no change at all. -/
theorem leaves_newPhi (b : BlockId) (x : VarId) (s : Tracked) :
    Leaves (newPhi b x) s (fun _ t => t = s) fun v t => v = s.graph.nextValue ∧ ∃ ty,
      t = Tracked.christened x (.value v) ⟨s.graph.withPhi b x ty, s.reaching.countCreated⟩ := by
  rw [newPhi_eq]
  refine Leaves.seq (looks_declaration x s) fun d t ht => ?_
  subst ht
  refine Leaves.seq (P := fun v u => v = t.graph.nextValue ∧
    u = ⟨t.graph.withPhi b x d.ty, t.reaching⟩) ((Leaves.focus_iff _).2 ?_) fun v u hu => ?_
  · refine (Edit.leaves_appendPhi b x d.ty t.graph).mono (fun _ g hg => ?_) fun v g hg => ?_
    · rw [hg]
    · exact ⟨hg.1, by rw [hg.2]⟩
  · obtain ⟨rfl, rfl⟩ := hu
    exact ⟨rfl, d.ty, rfl⟩

/-- A new phi is owed, and it waits nowhere. -/
theorem tallied_newPhi (h : s.Tallied n D) (b : BlockId) (x : VarId) :
    Leaves (newPhi b x) s (fun _ t => t.Tallied n D) fun v t => t.Tallied (n + 1) D ∧
      v.index < t.graph.values.size ∧ ∀ c y, (y, v) ∉ t.reaching.pending.image c := by
  refine (leaves_newPhi b x s).mono (fun _ t ht => ht ▸ h) fun v t ht => ?_
  obtain ⟨rfl, ty, rfl⟩ := ht
  refine ⟨(h.withPhi b x ty).christened x _, ?_, ?_⟩
  · have hsize := congrArg List.length (Tracked.roles_christened x (.value s.graph.nextValue)
      ⟨s.graph.withPhi b x ty, s.reaching.countCreated⟩)
    rw [Graph.length_survey, Graph.length_survey, Graph.size_withPhi] at hsize
    exact hsize ▸ Nat.lt_succ_self _
  · rw [(Tracked.counts_christened x _ _).2]
    exact h.not_waits

/-- **A phi that is retired** is detached and counted. A fault comes before that. -/
theorem leaves_retire {v : ValueId} (hv : s.graph.HasPhi v) (o : Operand) :
    Leaves (retire v o) s
      (fun _ t => t.graph.roles = s.graph.roles ∧ t.reaching = s.reaching)
      fun _ t => t.graph.roles = s.graph.roles.set v.index (true, false) ∧
        t.reaching = (s.reaching.reroute v o).countRemoved := by
  unfold retire
  refine Leaves.seq (P := fun _ t => t.graph.roles = s.graph.roles ∧ t.reaching = s.reaching)
    ((Leaves.focus_iff _).2 ?_) fun former t ⟨ht, hr⟩ => ?_
  · exact (Edit.spares_replaceUses Value.overlooks_role v o _ s.graph rfl).mono
      (fun _ g hg => ⟨hg, rfl⟩) fun _ g hg => ⟨hg.1, rfl⟩
  rw [← ht, ← hr]
  have hv' : t.graph.HasPhi v := by
    unfold Graph.HasPhi
    rwa [ht]
  obtain ⟨x, hx, hphi, ha⟩ := Graph.hasPhi_iff.1 hv'
  obtain ⟨b, hb⟩ := Option.isSome_iff_exists.1 ha
  have hrole : Value.role { x with block := none } = (true, false) := Prod.ext hphi rfl
  refine Leaves.seq (P := fun _ u => u = ⟨t.graph.without v x b, t.reaching⟩)
    ((Leaves.focus_iff _).2 ?_) fun _ u hu => ?_
  · refine (Edit.leaves_detach_of_attached hx hb).mono (fun _ g hg => ?_) fun _ g hg => ?_
    · rw [hg]
      exact ⟨rfl, rfl⟩
    · rw [hg]
  · subst hu
    refine ⟨?_, rfl⟩
    exact (Graph.survey_without hx b).trans (congrArg _ hrole)

theorem tallied_retire (h : s.Tallied n D) {v : ValueId} (hv : s.graph.HasPhi v) (o : Operand) :
    Leaves (retire v o) s (fun _ t => t.Tallied n D) fun _ t => t.Tallied n D := by
  refine (leaves_retire hv o).mono (fun _ t ⟨hg, hr⟩ => ?_) fun _ t ⟨hg, hr⟩ => ?_
  · obtain ⟨g, r⟩ := t
    subst hr
    exact h.onGraph hg
  · obtain ⟨g, r⟩ := t
    obtain ⟨defs, holders, hroute⟩ := s.reaching.reroute_eq v o
    subst hr
    refine (h.without hv hg).onTables ?_ ?_ <;> rw [hroute] <;> rfl

/-! ## 5. Removing and filling -/

/-- What leaves the counts and the waiting lists alone. -/
theorem tallied_onTables {f : Reaching → Reaching} (hstats : ∀ r, (f r).stats = r.stats)
    (hpending : ∀ r, (f r).pending = r.pending) :
    Yields (Tallied n D) (fun _ => True) (onTables f) :=
  .modify fun s hs => hs.onTables (hstats s.reaching) (hpending s.reaching)

theorem looks_edit {x : Edit α} (hx : Looks x) : Looks (liftM x : Track α) :=
  .focus (fun _ => rfl) hx

theorem looks_resolve (o : Operand) : Looks (liftM (Edit.resolve o) : Track Operand) :=
  looks_edit (.look fun _ => .pure _)

theorem tallied_recheck {remove : ValueId → Track Operand}
    (hremove : ∀ u, Yields (Tallied n D) (fun _ => True) (remove u)) (v : ValueId) (u : User) :
    Yields (Tallied n D) (fun _ => True) (recheck remove v u) := by
  cases u with
  | branch b => exact .pure trivial
  | value u =>
    refine .look fun s _ => ?_
    split
    · exact .pure trivial
    · refine .bind (.of_looks (looks_edit (Edit.looks_value u))) fun y _ => ?_
      split
      · exact (hremove u).discard
      · exact .pure trivial

/-- **However a cascade of removals ends**, the counts are right. -/
theorem tallied_removeTrivialWithin (m : Nat) (v : ValueId) :
    Yields (Tallied n D) (fun _ => True) (removeTrivialWithin m v) := by
  induction m generalizing v with
  | zero => exact .throw _
  | succ m ih =>
    intro s hs
    refine Leaves.looked (looks_edit (Edit.looks_value v))
      ((ends_lift _).2 (Edit.ends_value_or trivial fun _ hx => hx)) (fun _ => hs) fun x hx => ?_
    split
    · rename_i ha
      refine Leaves.looked (looks_ask _) (ends_asked _) (fun _ => hs) fun o? ho => ?_
      split
      · exact ⟨hs, trivial⟩
      · rename_i o
        obtain ⟨x', hx', hphi, -⟩ := exists_of_trivialReplacement ho
        cases hx.symm.trans hx'
        refine (tallied_retire hs (Graph.hasPhi_iff.2 ⟨x, hx, hphi, ha⟩) o).seq
          fun former t ht => ?_
        exact Yields.bind (.forM (tallied_recheck ih v) former)
          (fun _ _ => .of_looks (looks_resolve o)) t ht
    · exact Yields.of_looks (looks_resolve _) s hs

theorem tallied_fillWith {read : BlockId → Track Operand}
    (hread : ∀ q, Yields (Tallied n D) (fun _ => True) (read q)) (v : ValueId) :
    Yields (Tallied n D) (fun _ => True) (fillWith read v) := by
  refine .bind (.of_looks (looks_edit (Edit.looks_value v))) fun x _ => ?_
  split
  · exact .throw _
  · refine .bind (.of_looks (looks_edit (Edit.looks_block _))) fun y _ => ?_
    refine .bind (tallied_onTables (fun _ => rfl) fun _ => rfl) fun _ _ => ?_
    refine .bind (.forM (fun q => ?_) y.preds) fun _ _ => ?_
    · exact .bind (hread q) fun o _ =>
        Tracked.surveys_tallied.yields (Edit.spares_pushIncoming Value.overlooks_role v o q)
    · refine .bind (tallied_onTables (fun _ => rfl) fun _ => rfl) fun _ _ => ?_
      exact .look fun s _ => tallied_removeTrivialWithin _ v

/-! ## 6. Reading -/

theorem tallied_readThrough {read : BlockId → Track Operand}
    (hread : ∀ q, Yields (Tallied n D) (fun _ => True) (read q)) (x : VarId) (b : BlockId) :
    Yields (Tallied n D) (fun _ => True) (readThrough read x b) := by
  refine .bind (.of_looks (looks_declaration x)) fun d _ => ?_
  refine .bind (.of_looks (looks_edit (Edit.looks_block b))) fun y _ => ?_
  split
  · split
    · exact .pure trivial
    · exact hread _
    · -- a phi that is filled at once never waits
      intro s hs
      refine (tallied_newPhi hs b x).seq fun v t ht => ?_
      have hrecord : Yields (Tallied n D) (fun _ => True) (onTables (·.record x b (.value v))) :=
        tallied_onTables (fun _ => rfl) fun _ => rfl
      exact hrecord.bind (fun _ _ => tallied_fillWith hread v) t ht.1.settle
  · intro s hs
    refine (tallied_newPhi hs b x).seq fun v t ⟨ht, hknown, hnew⟩ => ?_
    exact ⟨ht.await hknown (hnew b x), trivial⟩

theorem tallied_readWithin (m : Nat) (x : VarId) (b : BlockId) :
    Yields (Tallied n D) (fun _ => True) (readWithin m x b) := by
  induction m generalizing b with
  | zero =>
    unfold readWithin
    refine .look fun s _ => ?_
    split
    · exact .of_looks (looks_resolve _)
    · exact .throw _
  | succ m ih =>
    unfold readWithin
    refine .look fun s _ => ?_
    split
    · exact .of_looks (looks_resolve _)
    · refine .bind (tallied_readThrough ih x b) fun o _ => ?_
      refine .bind (.of_looks (looks_resolve o)) fun o _ => ?_
      exact .bind (tallied_onTables (fun _ => rfl) fun _ => rfl) fun _ _ => .pure trivial

/-- **Reading a variable keeps the tally**, whatever is owed and due. -/
theorem tallied_read (x : VarId) (b : BlockId) :
    Yields (Tallied n D) (fun _ => True) (read x b) := .look fun _ _ => tallied_readWithin _ x b

/-! ## 7. Sealing -/

/-- **While waiting phis are filled** one of them is owed, and the others still wait. -/
theorem tallied_fillPending {b : BlockId} (ws : List (VarId × ValueId)) (hws : ws.Nodup)
    {s : Tracked} (hs : s.Tallied n fun c q => b = c ∧ q ∈ ws) :
    Leaves (fillPending b ws) s (fun _ t => t.Tallied n fun _ _ => False)
      fun _ t => t.Tallied n fun _ _ => False := by
  induction ws generalizing s with
  | nil => exact hs.mono False.elim
  | cons q ws ih =>
    obtain ⟨x, v⟩ := q
    obtain ⟨hnew, hws⟩ := List.nodup_cons.1 hws
    have howed : Tallied (n + 1) (fun c q => b = c ∧ q ∈ ws)
        ⟨s.graph, { s.reaching with pending := s.reaching.pending.remove b (x, v) }⟩ :=
      (hs.unawait (hs.waits ⟨rfl, List.mem_cons_self⟩)).mono fun {c q} ⟨hc, hq⟩ =>
        ⟨⟨hc, List.mem_cons_of_mem _ hq⟩, fun e => hnew (e.2 ▸ hq)⟩
    rw [fillPending_cons]
    unfold fillNext
    rw [Leaves.bind_iff, Leaves.bind_iff]
    show Leaves (discard (fill x v) >>= fun _ => onTables Reaching.countCompleted)
      ⟨s.graph, { s.reaching with pending := s.reaching.pending.remove b (x, v) }⟩ _ _
    have hfill := (tallied_fillWith (fun q => tallied_read x q) v).discard _ howed
    refine Leaves.seq (hfill.mono (fun _ t ht => ht.settle.mono False.elim) fun _ _ ht => ht)
      fun _ t ht => ?_
    exact ih hws ht.1.complete

/-- **Sealing a block keeps the tally.** -/
theorem tallied_sealBlock (b : BlockId) :
    Yields (Tallied n fun _ _ => False) (fun _ => True) (sealBlock b) := by
  refine .bind (.of_looks (looks_edit (Edit.looks_block b))) fun y _ => ?_
  split
  · exact .throw _
  · intro s hs
    have hwaits : s.Tallied n fun c q => b = c ∧ q ∈ s.reaching.pending.image b :=
      { hs with waits := fun hq => hq.1 ▸ hq.2 }
    refine (tallied_fillPending _ (hs.nodup b) hwaits).seq fun _ t ht => ?_
    exact Tracked.surveys_tallied.yields (Edit.spares_updateBlock b _) t ht

end Track

end BitFlow
