import BitFlow.Proofs.Graph.Grow
import BitFlow.Proofs.Meaning.Sound

/-!
# Meanings of a growing graph

A graph under construction has many futures. A meaning that fits a later state fits every earlier
one: edges are only added, and only to blocks that are not sealed, and a block with a successor is
not written any more. So what is right is right for all futures at once.

Main statements: `Fits.back` -- fitting is handed back to earlier states; `Sound.write` -- a write
keeps definitions right.
-/

namespace BitFlow

variable {T : Type} {m : Meaning T} {W : Writes} {closing : Option BlockId} {s t : Tracked}

/-! ## 1. The start, and changes of the graph that leave phis alone -/

/-- Graph and tables stay consistent under a change that leaves phis and seals alone, and the
    predecessors of blocks where they are final. -/
theorem Sane.regraph (h : Sane closing s) {g : Graph} (hg : g.Steady)
    (hsize : s.graph.values.size ≤ g.values.size) (hphi : ∀ v, g.phi? v = s.graph.phi? v)
    (hsealed : ∀ b, g.isSealed b = s.graph.isSealed b)
    (hpreds : ∀ b, s.graph.Closed closing b → g.preds b = s.graph.preds b) :
    Sane closing { s with graph := g } := by
  have hcl : ∀ {b}, s.graph.Closed closing b → g.Closed closing b := by
    intro b hc
    unfold Graph.Closed
    rw [hsealed]
    exact hc
  refine ⟨hg, h.mirrored, h.tight, h.nodup_pending, fun hq => (h.defs_known hq).mono hsize,
    fun {v p} hp => ?_, fun {v} hv => ?_, fun {b x v} hv => ?_, fun {v p} hp hf hw => ?_⟩
  · rw [hphi] at hp
    exact h.declared hp
  · obtain ⟨p, hp, hc, hq⟩ := h.filling hv
    exact ⟨p, by rw [hphi, hp], hcl hc, by rw [hpreds _ hc]; exact hq⟩
  · obtain ⟨⟨ty, hp⟩, h2, h3, h4⟩ := h.pending hv
    exact ⟨⟨ty, by rw [hphi, hp]⟩, h2, by rw [hsealed, h3], h4⟩
  · rw [hphi] at hp
    obtain ⟨h1, h2⟩ := h.complete hp hf hw
    exact ⟨by rw [hpreds _ h2]; exact h1, hcl h2⟩

theorem Sane.fresh (name : String) (vars : List Variable) (nameValues : Bool) :
    Sane none ⟨.fresh name, .fresh vars nameValues⟩ where
  steady := .fresh name
  mirrored := .fresh vars nameValues
  tight := .empty
  nodup_pending := fun _ => List.nodup_nil
  defs_known := fun h => by cases h
  declared := fun h => by cases h
  filling := fun h => by cases h
  pending := fun h => by cases h
  complete := fun h => by cases h

theorem Sane.pushBlock (h : Sane closing s) (label : String) (kind : BlockKind) :
    Sane closing { s with graph := s.graph.pushBlock label kind } :=
  h.regraph (h.steady.pushBlock label kind) (Nat.le_refl _) (fun _ => rfl)
    (s.graph.isSealed_pushBlock label kind) fun b _ => s.graph.preds_pushBlock label kind b

theorem Sane.link (h : Sane none s) {p b : BlockId} {z y : Block} (hp : s.graph.block? p = some z)
    (hb : s.graph.block? b = some y) (hy : y.isSealed = false ∨ p ∈ y.preds)
    {cond : Option Operand} (hc : ∀ o ∈ cond, s.graph.Knows o) :
    Sane none { s with graph := s.graph.link p cond b } := by
  refine h.regraph (h.steady.link hp hb hc) (Nat.le_of_eq (s.graph.size_link p cond b).symm)
    (s.graph.phi?_link p cond b) (s.graph.isSealed_link p cond b) fun c hcl => ?_
  rw [Graph.preds_link hb, if_neg]
  rintro ⟨rfl, hn⟩
  rw [Graph.preds_of_block? hb] at hn
  rcases hy with hy | hy
  · rcases hcl with hcl | hcl
    · rw [Graph.isSealed_of_block? hb, hy] at hcl
      cases hcl
    · cases hcl
  · exact hn hy

theorem Sane.withInstr (h : Sane closing s) {b : BlockId} {y : Block}
    (hb : s.graph.block? b = some y) (place : Nat) (ty : Ty) (origin : Origin) {i : Instr}
    (hi : ∀ o ∈ i.operands, s.graph.Knows o) :
    Sane closing { s with graph := s.graph.withInstr b place ty origin i } :=
  h.regraph (h.steady.withInstr hb place ty origin hi)
    (by rw [Graph.size_withInstr]; exact Nat.le_succ _)
    (s.graph.phi?_withInstr b place ty origin i) (s.graph.isSealed_withInstr b place ty origin i)
    fun c _ => s.graph.preds_withInstr b place ty origin i c

theorem Sane.withDead (h : Sane closing s) (b : BlockId) :
    Sane closing { s with graph := s.graph.withDead b } :=
  h.regraph (h.steady.updateBlock b fun _ => ⟨rfl, rfl, rfl, rfl, rfl⟩) (Nat.le_refl _)
    (fun _ => rfl) (s.graph.isSealed_withDead b) fun c _ => s.graph.preds_withDead b c

/-- What is right stays right under a change that leaves phis and forwards alone. -/
theorem Sound.regraph (h : Sound m W s) {g : Graph} (hphi : ∀ v, g.phi? v = s.graph.phi? v)
    (hf : g.forwards = s.graph.forwards) : Sound m W { s with graph := g } := by
  refine ⟨h.defs, h.unwritten, fun {v p o q} hp hm => ?_, fun {v o c} hm => ?_⟩
  · rw [hphi] at hp
    exact h.incoming hp hm
  · rw [hf] at hm
    exact h.forward hm

/-! ## 2. Fitting an earlier state -/

/-- **A meaning that fits a later state fits the earlier one**, if edges were only added, and none
    into blocks whose predecessors were final. -/
theorem Fits.back {closing' : Option BlockId} (h : Fits m W closing' t)
    (hentry : t.graph.entry = s.graph.entry) (hvars : t.reaching.vars = s.reaching.vars)
    (hsub : ∀ q b, q ∈ s.graph.preds b → q ∈ t.graph.preds b)
    (hclosed : ∀ b, s.graph.Closed closing b → t.graph.Closed closing' b ∧
      ∀ q, q ∈ t.graph.preds b → q ∈ s.graph.preds b) : Fits m W closing s := by
  refine ⟨h.entry.trans hentry, fun hq => h.edge (hsub _ _ hq), fun {q b} hc he => ?_, h.no_entry,
    fun {x d} hd => h.start (by rw [hvars]; exact hd), fun hq => h.frozen (hsub _ _ hq)⟩
  obtain ⟨h1, h2⟩ := hclosed b hc
  exact h2 q (h.closed h1 he)

/-- What fits while a block is being sealed fitted before. -/
theorem Fits.opened (h : Fits m W closing s) : Fits m W none s := by
  refine h.back rfl rfl (fun _ _ hq => hq) fun b hc => ⟨?_, fun _ hq => hq⟩
  rcases hc with hc | hc
  · exact .inl hc
  · cases hc

theorem Fits.of_pushBlock {label : String} {kind : BlockKind}
    (h : Fits m W closing { s with graph := s.graph.pushBlock label kind }) :
    Fits m W closing s := by
  refine h.back rfl rfl (fun q b hq => ?_) fun b hc => ⟨?_, fun q hq => ?_⟩
  · rw [Graph.preds_pushBlock]
    exact hq
  · unfold Graph.Closed
    rw [Graph.isSealed_pushBlock]
    exact hc
  · rw [Graph.preds_pushBlock] at hq
    exact hq

theorem Fits.of_link {p b : BlockId} {y : Block} {cond : Option Operand}
    (hb : s.graph.block? b = some y) (hy : y.isSealed = false ∨ p ∈ y.preds)
    (h : Fits m W none { s with graph := s.graph.link p cond b }) : Fits m W none s := by
  refine h.back (s.graph.entry_link p cond b) rfl (fun q c hq => ?_)
    fun c hc => ⟨?_, fun q hq => ?_⟩
  · exact (Graph.mem_preds_link hb).2 (.inl hq)
  · unfold Graph.Closed
    rw [Graph.isSealed_link]
    exact hc
  · rcases (Graph.mem_preds_link hb).1 hq with hq | ⟨rfl, rfl⟩
    · exact hq
    · rw [Graph.preds_of_block? hb]
      refine hy.resolve_left fun hs => ?_
      rcases hc with hc | hc
      · rw [Graph.isSealed_of_block? hb, hs] at hc
        cases hc
      · cases hc

theorem Fits.of_withInstr {b : BlockId} {place : Nat} {ty : Ty} {origin : Origin} {i : Instr}
    (h : Fits m W closing { s with graph := s.graph.withInstr b place ty origin i }) :
    Fits m W closing s := by
  refine h.back (s.graph.entry_withInstr b place ty origin i) rfl (fun q c hq => ?_)
    fun c hc => ⟨?_, fun q hq => ?_⟩
  · rw [Graph.preds_withInstr]
    exact hq
  · unfold Graph.Closed
    rw [Graph.isSealed_withInstr]
    exact hc
  · rw [Graph.preds_withInstr] at hq
    exact hq

theorem Fits.of_withSeal {b : BlockId} {y : Block} (hb : s.graph.block? b = some y)
    (h : Fits m W none { s with graph := s.graph.withSeal b }) : Fits m W (some b) s := by
  refine h.back rfl rfl (fun q c hq => ?_) fun c hc => ⟨.inl ?_, fun q hq => ?_⟩
  · rw [Graph.preds_withSeal]
    exact hq
  · rw [Graph.isSealed_withSeal hb]
    rcases hc with hc | hc
    · rw [hc]
      exact ite_self true
    · rw [if_pos (Option.some.inj hc)]
  · rw [Graph.preds_withSeal] at hq
    exact hq

/-- A chain of steps changes nothing that a meaning has to fit. -/
theorem Fits.of_kept {floor : Nat} {scope : VarId → Prop} (hk : Kept floor scope s t)
    (h : Fits m W closing t) : Fits m W closing s :=
  h.congr (fun b => (hk.shape b).symm) hk.entry.symm hk.vars.symm

/-! ## 3. Writes -/

/-- The writes with `o` as the last one to `x` in `b`. -/
def Writes.set (W : Writes) (b : BlockId) (x : VarId) (o : Operand) : Writes :=
  fun c z => if c = b ∧ z = x then some o else W c z

theorem Meaning.content_set_of_ne {b c : BlockId} {x z : VarId} (h : ¬ (c = b ∧ z = x))
    (o : Operand) (π : List BlockId) : m.content (W.set b x o) c π z = m.content W c π z := by
  unfold Meaning.content Writes.set
  rw [if_neg h]

theorem Meaning.content_set_self (b : BlockId) (x : VarId) (o : Operand) (π : List BlockId) :
    m.content (W.set b x o) b π x = m.mean o (b :: π) := by
  unfold Meaning.content Writes.set
  rw [if_pos ⟨rfl, rfl⟩]

/-- **A write keeps definitions right.** -/
theorem Sound.write (h : Sound m W s) {x : VarId} {b : BlockId} {o : Operand}
    (ho : m.Avail o b) : Sound m (W.set b x o) (s.recorded x b o) := by
  refine ⟨fun {c z a} ha => ?_, fun {c z} ha => ?_, h.incoming, h.forward⟩
  · change (s.reaching.record x b o).defs.get? (c, z) = some a at ha
    rw [Reaching.get?_record] at ha
    split at ha
    · rename_i e
      obtain ⟨rfl, rfl⟩ := Prod.mk.inj e
      cases ha
      exact ⟨ho, fun π _ => (Meaning.content_set_self b x o π).symm⟩
    · rename_i e
      obtain ⟨h1, h2⟩ := h.defs ha
      refine ⟨h1, fun π hπ => (h2 π hπ).trans (Meaning.content_set_of_ne ?_ o π).symm⟩
      rintro ⟨rfl, rfl⟩
      exact e rfl
  · change (s.reaching.record x b o).defs.get? (c, z) = none at ha
    rw [Reaching.get?_record] at ha
    split at ha
    · cases ha
    · rename_i e
      unfold Writes.set
      rw [if_neg]
      · exact h.unwritten ha
      · rintro ⟨rfl, rfl⟩
        exact e rfl

/-- Before a block has a successor, what is written in it concerns no edge. -/
theorem Fits.of_write {x : VarId} {b : BlockId} {o : Operand}
    (hb : ∀ c, b ∉ s.graph.preds c)
    (h : Fits m (W.set b x o) closing (s.recorded x b o)) : Fits m W closing s := by
  refine ⟨h.entry, h.edge, h.closed, h.no_entry, h.start, fun {q c} hq π z hπ => ?_⟩
  rw [h.frozen hq π z hπ, Meaning.content_set_of_ne]
  rintro ⟨rfl, -⟩
  exact hb c hq

end BitFlow
