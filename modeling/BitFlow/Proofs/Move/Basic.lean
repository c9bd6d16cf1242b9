import BitFlow.Proofs.Graph.Owner
import BitFlow.Proofs.Meaning.Grow
import BitFlow.Proofs.Typing.Basic
import Mathlib.Logic.Relation

/-!
# What a lowering does, move by move

A lowering is a long chain of a few kinds of move: a variable is read, a block is sealed, blocks,
edges and instructions are added, a variable is written. `Move` lists them with what has been
checked before each. What every move keeps, every lowering keeps.

Main statements: `Move.idle`, `Move.typed`, `Move.trim` -- graph and tables stay consistent and
typed, and all phis stay needed; `Moves.idle` and its companions -- along every chain of moves.
-/

namespace BitFlow

/-! ## 1. Moves -/

/-- **One move of the lowering of `p`**, with what was checked before it. -/
inductive Move (p : Program) : Tracked → Tracked → Prop where
  | read {s t : Tracked} {x : VarId} {b : BlockId} {o : Operand}
      (run : (Track.read x b).run s = .ok o t) : Move p s t
  | sealed {s t : Tracked} {b : BlockId} (run : (Track.sealBlock b).run s = .ok () t) : Move p s t
  | block {s : Tracked} (label : String) (kind : BlockKind) :
      Move p s { s with graph := s.graph.pushBlock label kind }
  | edge {s : Tracked} {q b : BlockId} {z y : Block} {cond : Option Operand}
      (source : s.graph.block? q = some z) (target : s.graph.block? b = some y)
      (live : y.isUnreachable = false) (fits : y.isSealed = false ∨ q ∈ y.preds)
      (typed : ∀ o, cond = some o → s.graph.typeOf? o = some .bit) :
      Move p s { s with graph := s.graph.link q cond b }
  | instr {s : Tracked} {b : BlockId} {y : Block} {ty : Ty} {i : Instr} {tys : List Ty}
      (known : s.graph.block? b = some y) (types : i.operands.map s.graph.typeOf? = tys.map some)
      (typed : i.Admits p tys ty) (place : Nat) (origin : Origin) :
      Move p s { s with graph := s.graph.withInstr b place ty origin i }
  | write {s : Tracked} {x : VarId} {d : Variable} {o : Operand}
      (declared : variableById? s.reaching.vars x = some d)
      (typed : s.graph.typeOf? o = some d.ty) (anchored : s.graph.Anchors o) (b : BlockId)
      (near : s.graph.preds b = [] → s.graph.AtHand b o) : Move p s (s.recorded x b o)
  | kill {s : Tracked} {b : BlockId} (bare : s.graph.preds b = []) :
      Move p s { s with graph := s.graph.withDead b }
  | alike {s t : Tracked} (h : s.Alike t) (counts : t.reaching.stats = s.reaching.stats) :
      Move p s t

/-- A chain of moves. -/
def Moves (p : Program) : Tracked → Tracked → Prop := Relation.ReflTransGen (Move p)

/-! ## 2. Reading and sealing -/

namespace Track

variable {closing : Option BlockId} {s t : Tracked} {x : VarId} {b : BlockId} {o : Operand}

/-- What a read leaves that comes to an end, at whatever block. -/
theorem didRead_of_run (hs : Sane closing s) (run : (read x b).run s = .ok o t) :
    DidRead closing x b s o t := by
  cases hb : s.graph.block? b with
  | some y =>
    exact (ends_read (R := fun _ => True) (fun _ => trivial) hs ⟨y, hb⟩ (.inl trivial)).of_ok run
  | none =>
    -- at a block that does not exist only what is recorded is found
    have hends : ∀ n, Ends (readWithin n x b) s (fun _ => True) (DidRead closing x b s) := by
      intro n
      unfold readWithin
      rw [Ends.bind_iff, Ends.get_iff]
      cases hd : s.reaching.definition? x b with
      | some a =>
        rw [ends_resolve]
        refine ⟨⟨[], .refl s⟩, rfl, ?_, id⟩
        show (s.reaching.definition? x b).map _ = _
        rw [hd]
        rfl
      | none =>
        cases n with
        | zero => trivial
        | succ n =>
          rw [Ends.bind_iff]
          unfold readThrough
          rw [Ends.bind_iff]
          refine ends_declaration (fun _ => trivial) fun d _ => ?_
          rw [Ends.bind_iff, ends_lift]
          refine Edit.ends_block_or trivial fun y hy => ?_
          rw [hb] at hy
          cases hy
    refine Ends.of_ok (R := fun _ => True) ?_ run
    unfold read
    rw [Ends.bind_iff, Ends.get_iff]
    exact hends _

/-- **What a seal leaves that succeeds**: the block was there and not sealed, a chain of steps ran,
    and the seal is set. -/
theorem sealed_of_run (hs : Sane none s) (run : (sealBlock b).run s = .ok () t) :
    ∃ y made u, s.graph.block? b = some y ∧ Steps 0 (fun _ => True) (some b) s made u ∧
      u.reaching.filling = s.reaching.filling ∧ t = { u with graph := u.graph.withSeal b } ∧
      Sane none t ∧ (s.Trim → t.Trim) := by
  refine Ends.of_ok (R := fun _ => True) (Q := fun _ t => ∃ y made u, s.graph.block? b = some y ∧
    Steps 0 (fun _ => True) (some b) s made u ∧ u.reaching.filling = s.reaching.filling ∧
    t = { u with graph := u.graph.withSeal b } ∧ Sane none t ∧ (s.Trim → t.Trim)) ?_ run
  cases hb : s.graph.block? b with
  | none =>
    unfold sealBlock
    rw [Ends.bind_iff, ends_lift]
    refine Edit.ends_block_or trivial fun y hy => ?_
    rw [hb] at hy
    cases hy
  | some y =>
    cases hy : y.isSealed with
    | true =>
      unfold sealBlock
      rw [Ends.bind_iff, ends_lift, Edit.ends_block hb, hy]
      trivial
    | false =>
      refine (ends_sealBlock hs hb hy (.inl trivial)).mono fun _ t h => ?_
      obtain ⟨made, u, hst, hfill, -, ht, hsane, -, htrim⟩ := h
      exact ⟨y, made, u, rfl, hst, hfill, ht, hsane, htrim⟩

end Track

/-! ## 3. What every move keeps -/

/-- Graph and tables are consistent, and no phi is being filled. -/
structure Idle (s : Tracked) : Prop where
  sane : Sane none s
  filling : s.reaching.filling = []

namespace Move

variable {p : Program} {s t : Tracked}

/-- **Every move keeps graph and tables consistent.** -/
theorem idle (h : Idle s) (hm : Move p s t) : Idle t := by
  cases hm with
  | read run =>
    have hd := Track.didRead_of_run h.sane run
    exact ⟨hd.sane h.sane, hd.filling.trans h.filling⟩
  | sealed run =>
    obtain ⟨y, made, u, -, -, hfill, rfl, hsane, -⟩ := Track.sealed_of_run h.sane run
    exact ⟨hsane, hfill.trans h.filling⟩
  | block label kind => exact ⟨h.sane.pushBlock label kind, h.filling⟩
  | edge source target _ fits typed =>
    exact ⟨h.sane.link source target fits fun o ho => Graph.knows_of_typeOf? (typed o ho), h.filling⟩
  | instr known types _ place origin =>
    refine ⟨h.sane.withInstr known place _ origin fun o ho => ?_, h.filling⟩
    obtain ⟨ty, -, hty⟩ := List.mem_map.1 (types ▸ List.mem_map_of_mem ho)
    exact Graph.knows_of_typeOf? hty.symm
  | write _ _ anchored b _ => exact ⟨h.sane.recorded _ b anchored.knows, h.filling⟩
  | kill => exact ⟨h.sane.withDead _, h.filling⟩
  | alike ha => exact ⟨h.sane.alike ha, ha.filling.trans h.filling⟩

/-- **Every move keeps the declarations.** -/
theorem vars (hs : Idle s) (hm : Move p s t) : t.reaching.vars = s.reaching.vars := by
  cases hm with
  | read run => exact ((Track.didRead_of_run hs.sane run).kept hs.sane).vars
  | sealed run =>
    rename_i b
    obtain ⟨y, made, u, -, hst, -, rfl, -⟩ := Track.sealed_of_run hs.sane run
    exact (hst.kept (hs.sane.closing b) (Nat.zero_le _)).vars
  | alike ha => exact ha.vars
  | block | edge | instr | write | kill => rfl

/-- **No move takes a type away.** -/
theorem keepsTypes (hs : Idle s) (hm : Move p s t) : s.graph.KeepsTypes t.graph := by
  cases hm with
  | read run =>
    obtain ⟨made, hst⟩ := (Track.didRead_of_run hs.sane run).steps
    exact hst.keepsTypes
  | sealed run =>
    obtain ⟨y, made, u, -, hst, -, rfl, -⟩ := Track.sealed_of_run hs.sane run
    exact hst.keepsTypes
  | edge =>
    intro o ty ho
    rw [← ho]
    exact Graph.typeOf?_congr fun v _ => by rw [Graph.value?_link]
  | instr _ _ _ place origin => exact s.graph.keepsTypes_withInstr _ place _ origin _
  | alike ha => exact fun o ty ho => (ha.graph.typeOf? o).trans ho
  | block | write | kill => exact .refl _

/-- **Every move keeps the types.** -/
theorem typed (hs : Idle s) (h : Typed p s) (hm : Move p s t) : Typed p t := by
  cases hm with
  | read run =>
    obtain ⟨made, hst⟩ := (Track.didRead_of_run hs.sane run).steps
    exact Typed.steps hst hs.sane h
  | sealed run =>
    rename_i b
    obtain ⟨y, made, u, -, hst, -, rfl, -⟩ := Track.sealed_of_run hs.sane run
    have hu : Typed p u := Typed.steps hst (hs.sane.closing b) h
    refine hu.grow (.refl _) rfl .inl .inl rfl .inl fun hbr _ => .inl ?_
    rwa [show Graph.branches _ _ = _ from u.graph.branches_withSeal b _] at hbr
  | block label kind =>
    refine h.grow (.refl _) rfl .inl .inl rfl .inl fun hbr _ => .inl ?_
    rwa [show Graph.branches _ _ = _ from s.graph.branches_pushBlock label kind _] at hbr
  | edge source target live fits typed =>
    rename_i q b z y cond
    refine h.grow (keepsTypes hs (.edge (p := p) source target live fits typed)) rfl .inl
      (fun {v q'} hq => .inl ?_) (s.graph.forwards_link q cond b) (fun {v i} hi => .inl ?_)
      fun {c br o} hbr ho => ?_
    · rwa [show Graph.phi? _ v = _ from s.graph.phi?_link q cond b v] at hq
    · rwa [show Graph.instr? _ v = _ from s.graph.instr?_link q cond b v] at hi
    · rw [show Graph.branches _ c = _ from Graph.branches_link source cond b c] at hbr
      split at hbr
      · rename_i e
        subst e
        rcases List.mem_append.1 hbr with hbr | hbr
        · exact .inl hbr
        · rw [List.mem_singleton.1 hbr] at ho
          exact .inr (typed o ho)
      · exact .inl hbr
  | instr known types typed place origin =>
    rename_i b y ty i tys
    refine h.grow (s.graph.keepsTypes_withInstr b place ty origin i) rfl .inl
      (fun {v q'} hq => .inl ?_) (s.graph.forwards_withInstr b place ty origin i)
      (fun {v j} hj => ?_) fun hbr _ => .inl ?_
    · rwa [show Graph.phi? _ v = _ from s.graph.phi?_withInstr b place ty origin i v] at hq
    · rw [show Graph.instr? _ v = _ from s.graph.instr?_withInstr b place ty origin i v] at hj
      split at hj
      · cases hj
        exact .inr ⟨tys, types, typed⟩
      · exact .inl hj
    · rwa [show Graph.branches _ _ = _ from s.graph.branches_withInstr b place ty origin i _] at hbr
  | write declared typed _ b _ => exact h.recorded declared typed b
  | kill =>
    refine h.grow (.refl _) rfl .inl .inl rfl .inl fun hbr _ => .inl ?_
    rwa [show Graph.branches _ _ = _ from s.graph.branches_withDead _ _] at hbr
  | alike ha => exact h.alike ha

/-- **Every move keeps all phis needed.** -/
theorem trim (hs : Idle s) (h : s.Trim) (hm : Move p s t) : t.Trim := by
  cases hm with
  | read run => exact (Track.didRead_of_run hs.sane run).trim h
  | sealed run =>
    obtain ⟨y, made, u, -, -, -, -, -, htrim⟩ := Track.sealed_of_run hs.sane run
    exact htrim h
  | block => exact h.congr (fun _ => rfl) rfl rfl
  | edge => exact h.congr (s.graph.phi?_link _ _ _) rfl rfl
  | instr _ _ _ place origin => exact h.congr (s.graph.phi?_withInstr _ place _ origin _) rfl rfl
  | write => exact h.congr (fun _ => rfl) rfl rfl
  | kill => exact h.congr (fun _ => rfl) rfl rfl
  | alike ha => exact h.alike ha

end Move

/-! ## 4. Chains of moves -/

namespace Moves

variable {p : Program} {s t u : Tracked}

theorem refl (s : Tracked) : Moves p s s := Relation.ReflTransGen.refl

theorem trans (h : Moves p s t) (h' : Moves p t u) : Moves p s u := Relation.ReflTransGen.trans h h'

theorem single (h : Move p s t) : Moves p s t := Relation.ReflTransGen.single h

/-- **Every chain of moves keeps graph and tables consistent.** -/
theorem idle (hm : Moves p s t) (h : Idle s) : Idle t := by
  induction hm with
  | refl => exact h
  | tail _ hmove ih => exact hmove.idle ih

theorem vars (hm : Moves p s t) (h : Idle s) : t.reaching.vars = s.reaching.vars := by
  induction hm with
  | refl => rfl
  | tail hchain hmove ih => exact (hmove.vars (idle hchain h)).trans ih

theorem keepsTypes (hm : Moves p s t) (h : Idle s) : s.graph.KeepsTypes t.graph := by
  induction hm with
  | refl => exact .refl _
  | tail hchain hmove ih => exact ih.trans (hmove.keepsTypes (idle hchain h))

theorem typed (hm : Moves p s t) (hs : Idle s) (h : Typed p s) : Typed p t := by
  induction hm with
  | refl => exact h
  | tail hchain hmove ih => exact hmove.typed (idle hchain hs) ih

theorem trim (hm : Moves p s t) (hs : Idle s) (h : s.Trim) : t.Trim := by
  induction hm with
  | refl => exact h
  | tail hchain hmove ih => exact hmove.trim (idle hchain hs) ih

end Moves

end BitFlow
