import BitFlow.Proofs.Action.Outline
import BitFlow.Proofs.Move.Frame

/-!
# Blocks that nothing leads to

A block without predecessors gets nothing from elsewhere: what it records for a variable is no value
or one of its own. Blocks that are declared dead are of that kind, since an edge leads to live
blocks only, and a block is declared dead when nothing leads there.

Main statements: `Step.housed`, `Move.sheltered` -- every step of a read and every move keeps it so;
`Moves.founded` -- along every chain of moves; `Build.provision_near` -- what is lowered at the end
of a block without predecessors is at hand there.
-/

namespace BitFlow

/-! ## 1. What a block without predecessors records -/

/-- **What a block without predecessors records is at hand there.** -/
def Tracked.Housed (s : Tracked) : Prop :=
  ∀ b x o, s.graph.preds b = [] → s.reaching.defs.get? (b, x) = some o → s.graph.AtHand b o

namespace Tracked.Housed

variable {s t : Tracked}

/-- Only the graph changes, and nothing changes its owner. -/
theorem mono (h : s.Housed) {g : Graph} (hp : ∀ b, g.preds b = [] → s.graph.preds b = [])
    (hg : ∀ b v, s.graph.Owns b v → g.Owns b v) : Housed ⟨g, s.reaching⟩ :=
  fun b x o hb ho => (h b x o (hp b hb) ho).mono (hg b)

/-- The graph and the definitions are the same. -/
theorem congr (h : s.Housed) (hg : t.graph = s.graph) (hd : t.reaching.defs = s.reaching.defs) :
    t.Housed := by
  intro b x o hb ho
  rw [hg] at hb ⊢
  rw [hd] at ho
  exact h b x o hb ho

/-- An operand is recorded that is at hand if the block has no predecessors. -/
theorem recorded (h : s.Housed) {x : VarId} {b : BlockId} {o : Operand}
    (ho : s.graph.preds b = [] → s.graph.AtHand b o) : (s.recorded x b o).Housed := by
  intro c z a hc ha
  change (s.reaching.record x b o).defs.get? (c, z) = some a at ha
  rw [Reaching.get?_record] at ha
  split at ha
  · rename_i e
    cases e
    cases ha
    exact ho hc
  · exact h c z a hc ha

/-- A new phi is recorded in its own block. -/
theorem withPhi (h : s.Housed) (b : BlockId) (x : VarId) (ty : Ty) :
    Housed ⟨s.graph.withPhi b x ty, s.reaching.record x b (.value s.graph.nextValue)⟩ := by
  have hgrown : Housed ⟨s.graph.withPhi b x ty, s.reaching⟩ :=
    h.mono (fun c hc => by rwa [Graph.preds_congr (s.graph.shape_withPhi b x ty c)] at hc)
      fun c v hv => Graph.owns_withPhi hv b x ty
  refine hgrown.recorded fun _ => Graph.atHand_value (Graph.owns_iff.2 ?_)
  rw [Graph.owner?_withPhi, if_pos rfl]

theorem alike (h : s.Housed) (ha : s.Alike t) : t.Housed := by
  intro b x o hb ho
  rw [Graph.preds_congr (ha.graph.shape b)] at hb
  rw [ha.defs] at ho
  refine (h b x o hb ho).mono fun v hv => ?_
  rw [Graph.owns_iff, ha.graph.owner?]
  exact Graph.owns_iff.1 hv

end Tracked.Housed

/-- A phi of a block without predecessors has no operand. -/
theorem Sane.incoming_eq_nil {closing : Option BlockId} {s : Tracked} (hs : Sane closing s)
    {v : ValueId} {p : OwnedPhi} (hp : s.graph.phi? v = some p)
    (hb : s.graph.preds p.block = []) : p.incoming = [] := by
  have hsources : p.sources = [] := by
    by_cases hf : v ∈ s.reaching.filling
    · obtain ⟨p', hp', -, hpre⟩ := hs.filling hf
      cases hp.symm.trans hp'
      rw [hb] at hpre
      exact List.prefix_nil.1 hpre
    by_cases hw : ∀ b x, (x, v) ∉ s.reaching.pending.image b
    · exact (hs.complete hp hf hw).1.trans hb
    · obtain ⟨b, hw⟩ := not_forall.1 hw
      obtain ⟨x, hw⟩ := not_forall_not.1 hw
      obtain ⟨⟨ty, hp'⟩, -⟩ := hs.pending hw
      cases hp.symm.trans hp'
      rfl
  exact List.map_eq_nil_iff.1 hsources

/-- What a read finds at a block without predecessors is at hand there. -/
theorem Tracked.Reads.atHand {closing : Option BlockId} {s : Tracked} (hs : Sane closing s)
    (h : s.Housed) {x : VarId} {b : BlockId} {o : Operand} (ho : s.Reads x b o)
    (hb : s.graph.preds b = []) : s.graph.AtHand b o := by
  cases ho with
  | again ho =>
    obtain ⟨a, ha, rfl⟩ := Option.map_eq_some_iff.1 ho
    have hat := h b x a hb ha
    rw [hs.steady.resolve_of_anchors hat.anchors]
    exact hat
  | nowhere _ _ _ d _ ho =>
    subst ho
    exact s.graph.atHand_undef b d.ty
  | through _ _ q hp _ =>
    rw [hb] at hp
    cases hp

section Steps

variable {floor : Nat} {scope : VarId → Prop} {closing : Option BlockId} {s t : Tracked}

/-- The places that record a retired phi are sent on. If one has no predecessors the phi is its own,
    so it has no operands and stands for nothing. -/
theorem Tracked.Housed.retired (h : s.Housed) (hs : Sane closing s) {v : ValueId} {p : OwnedPhi}
    {o : Operand} {g : Graph} (hp : s.graph.phi? v = some p)
    (ho : soleOperand (.value v) (.undef p.ty) p.operands = some o)
    (hg : Graph.Retired v o s.graph g) : Housed ⟨g, s.reaching.reroute v o⟩ := by
  intro b x a hb ha
  rw [show Graph.preds g b = _ from Graph.preds_congr (hg.shape b)] at hb
  change (s.reaching.reroute v o).defs.get? (b, x) = some a at ha
  rw [Reaching.get?_reroute hs.mirrored] at ha
  obtain ⟨a', ha', rfl⟩ := Option.map_eq_some_iff.1 ha
  have hat := h b x a' hb ha'
  by_cases e : a' = .value v
  · subst e
    have hblock : b = p.block := (hat v rfl).unique (Graph.owns_of_phi? hp)
    have hnil : p.incoming = [] := hs.incoming_eq_nil hp (hblock ▸ hb)
    unfold OwnedPhi.operands at ho
    rw [hnil] at ho
    cases ho
    rw [show Operand.replace (.value v) _ (.value v) = _ from if_pos rfl]
    exact g.atHand_undef b p.ty
  · rw [Operand.replace_of_ne e]
    intro w hw
    have hne : w ≠ v := fun hwv => e (hwv ▸ hw)
    rw [Graph.owns_iff, show Graph.owner? g w = _ from hg.owner? w, if_neg hne]
    exact Graph.owns_iff.1 (hat w hw)

/-- **Every step of reading or sealing keeps it so.** -/
theorem Step.housed {new : Option NewPhi} (hstep : Step floor scope closing s new t)
    (hs : Sane closing s) (h : s.Housed) : t.Housed := by
  cases hstep with
  | opened => exact (h.withPhi _ _ _).congr rfl rfl
  | awaited => exact (h.withPhi _ _ _).congr rfl rfl
  | started => exact h.congr rfl rfl
  | pushed =>
    refine h.mono (fun b hb => ?_) fun b v hv => ?_
    · rwa [Graph.preds_congr (s.graph.shape_withIncoming _ _ _ _ b)] at hb
    · rw [Graph.owns_iff, Graph.owner?_withIncoming]
      exact Graph.owns_iff.1 hv
  | filled => exact h.congr rfl rfl
  | retired _ hp _ _ ho hg => exact h.retired hs hp ho hg
  | recorded _ ho => exact h.recorded fun hb => ho.atHand hs h hb
  | alike ha => exact h.alike ha

theorem Steps.housed {made : List NewPhi} (hsteps : Steps floor scope closing s made t)
    (hs : Sane closing s) (h : s.Housed) : t.Housed := by
  induction hsteps with
  | refl => exact h
  | cons hstep _ ih => exact ih (hs.step hstep) (hstep.housed hs h)

end Steps

/-! ## 2. Sheltered graphs -/

/-- **Nothing leads to a dead block**, and what a block records to which nothing leads is at hand
    there. -/
structure Tracked.Sheltered (s : Tracked) : Prop where
  bare : ∀ {b}, s.graph.kind? b = some .unreachable → s.graph.preds b = []
  housed : s.Housed

/-- Reading and sealing leave the outline of the graph alone. -/
theorem Track.outline_of_run {α : Type} {x : Track α} {s t : Tracked} {a : α}
    (hx : Lower.Still α (Lower.tracking x)) (run : x.run s = .ok a t) :
    t.graph.outline = s.graph.outline := by
  let l : Lowering := ⟨⟨s.graph, s.reaching, ⟨s.graph.entry, none⟩, 0⟩, [], 0⟩
  have hrun : (Lower.tracking x).run l = .ok a { l with bench := l.bench.retrack t } :=
    focus_ok (focus_ok run)
  exact congrArg Prod.fst ((hx l).of_ok hrun)

namespace Tracked.Sheltered

variable {s t : Tracked}

/-- The outline of the graph is the same. -/
theorem of_outline (h : s.Sheltered) (ho : t.graph.outline = s.graph.outline) (ht : t.Housed) :
    t.Sheltered := by
  obtain ⟨-, hk, hp⟩ : t.graph.entry = s.graph.entry ∧ t.graph.kind? = s.graph.kind? ∧
      t.graph.preds = s.graph.preds := by
    simpa [Graph.outline] using ho
  refine ⟨fun {b} hb => ?_, ht⟩
  rw [hk] at hb
  rw [hp]
  exact h.bare hb

theorem pushBlock (h : s.Sheltered) (label : String) (kind : BlockKind) :
    Sheltered { s with graph := s.graph.pushBlock label kind } := by
  have hpreds : ∀ b, (s.graph.pushBlock label kind).preds b = s.graph.preds b :=
    s.graph.preds_pushBlock label kind
  refine ⟨fun {b} hb => ?_, h.housed.mono (fun b hb => (hpreds b).symm.trans hb) fun _ _ hv => hv⟩
  rw [show Graph.preds _ b = _ from hpreds b]
  change (s.graph.pushBlock label kind).kind? b = _ at hb
  rw [Graph.kind?_pushBlock] at hb
  split at hb
  · rename_i e
    rw [e]
    unfold Graph.preds
    rw [Graph.shape_nextBlock]
    rfl
  · exact h.bare hb

/-- An edge to a live block. -/
theorem link (h : s.Sheltered) {q b : BlockId} {y : Block} (hb : s.graph.block? b = some y)
    (hlive : y.isUnreachable = false) (cond : Option Operand) :
    Sheltered { s with graph := s.graph.link q cond b } := by
  have hpreds := Graph.preds_link hb q cond
  refine ⟨fun {c} hc => ?_, h.housed.mono (fun c hc => ?_) fun c v hv => ?_⟩
  · change (s.graph.link q cond b).kind? c = _ at hc
    rw [Graph.kind?_link] at hc
    have hne : c ≠ b := by
      rintro rfl
      rw [(Graph.live_iff hb).2 hlive] at hc
      cases hc
    rw [show Graph.preds _ c = _ from hpreds c, if_neg fun e => hne e.1.symm]
    exact h.bare hc
  · rw [hpreds] at hc
    split at hc
    · cases List.append_ne_nil_of_right_ne_nil _ (List.cons_ne_nil _ _) hc
    · exact hc
  · rw [Graph.owns_iff, Graph.owner?_link]
    exact Graph.owns_iff.1 hv

theorem withInstr (h : s.Sheltered) (b : BlockId) (place : Nat) (ty : Ty) (origin : Origin)
    (i : Instr) : Sheltered { s with graph := s.graph.withInstr b place ty origin i } := by
  have hpreds : ∀ c, (s.graph.withInstr b place ty origin i).preds c = s.graph.preds c :=
    s.graph.preds_withInstr b place ty origin i
  have hhoused : Housed { s with graph := s.graph.withInstr b place ty origin i } :=
    h.housed.mono (fun c hc => (hpreds c).symm.trans hc) fun c v hv =>
      Graph.owns_withInstr hv b place ty origin i
  have hview := s.graph.view_withInstr (f := fun y => (y.kind, y.preds))
    ⟨fun _ _ => rfl, fun _ _ => rfl, fun _ _ => rfl, fun _ _ => rfl⟩ b place ty origin i
  exact h.of_outline (Graph.view_eq_iff_outline_eq.1 hview) hhoused

/-- A block to which nothing leads is declared dead. -/
theorem withDead (h : s.Sheltered) {b : BlockId} (hb : s.graph.preds b = []) :
    Sheltered { s with graph := s.graph.withDead b } := by
  refine ⟨fun {c} hc => ?_, h.housed.mono (fun c hc => ?_) fun _ _ hv => hv⟩
  · rw [show Graph.preds _ c = _ from s.graph.preds_withDead b c]
    by_cases e : c = b
    · rw [e]
      exact hb
    · refine h.bare ?_
      rwa [show Graph.kind? _ c = _ from s.graph.kind?_withDead_of_ne e] at hc
  · rwa [Graph.preds_withDead] at hc

theorem alike (h : s.Sheltered) (ha : s.Alike t) : t.Sheltered := by
  refine ⟨fun {b} hb => ?_, h.housed.alike ha⟩
  rw [Graph.preds_congr (ha.graph.shape b)]
  refine h.bare ?_
  unfold Graph.kind? Graph.block? at hb ⊢
  rwa [ha.graph.blocks] at hb

/-- A variable is read. -/
theorem read (h : s.Sheltered) (hs : Sane none s) {x : VarId} {b : BlockId} {o : Operand}
    (run : (Track.read x b).run s = .ok o t) : t.Sheltered := by
  obtain ⟨made, hst⟩ := (Track.didRead_of_run hs run).steps
  exact h.of_outline (Track.outline_of_run (Lower.compositional_still.read x b) run)
    (hst.housed hs h.housed)

end Tracked.Sheltered

/-- **Every move keeps the graph sheltered.** -/
theorem Move.sheltered {p : Program} {s t : Tracked} (hm : Move p s t) (hs : Idle s)
    (h : s.Sheltered) : t.Sheltered := by
  cases hm with
  | read run => exact h.read hs.sane run
  | sealed run =>
    rename_i b
    obtain ⟨y, made, u, -, hst, -, rfl, -⟩ := Track.sealed_of_run hs.sane run
    have hu : u.Housed := hst.housed (hs.sane.closing b) h.housed
    refine h.of_outline (Track.outline_of_run (Lower.compositional_still.sealBlock _) run) ?_
    exact hu.mono (fun c hc => (u.graph.preds_withSeal b c).symm.trans hc) fun _ _ hv => hv
  | block label kind => exact h.pushBlock label kind
  | edge _ target live _ _ => exact h.link target live _
  | instr _ _ _ place origin => exact h.withInstr _ place _ origin _
  | write _ _ _ b near => exact ⟨h.bare, h.housed.recorded near⟩
  | kill bare => exact h.withDead bare
  | alike ha => exact h.alike ha

/-- Graph and tables are consistent, and the graph is sheltered. -/
structure Tracked.Founded (s : Tracked) : Prop extends Idle s where
  sheltered : s.Sheltered

theorem Moves.founded {p : Program} {s t : Tracked} (hm : Moves p s t) (h : s.Founded) :
    t.Founded := by
  induction hm with
  | refl => exact h
  | tail _ hmove ih => exact ⟨hmove.idle ih.toIdle, hmove.sheltered ih.toIdle ih.sheltered⟩

/-! ## 3. What is lowered at the end of a block -/

theorem Graph.Holds.atHand {g g' : Graph} (h : g.Holds g') {b : BlockId} {o : Operand}
    (ho : g.AtHand b o) : g'.AtHand b o :=
  ho.mono fun _ ⟨x, hx, hb⟩ => ⟨x, h.value hx, hb⟩

namespace Build

/-- The operand is at hand in the block if nothing leads there. -/
def Near (b : BlockId) (g : Graph) (o : Operand) : Prop := g.preds b = [] → g.AtHand b o

/-- The graph is sheltered, and the cursor is in the block. -/
structure Stays (b : BlockId) (s : Bench) : Prop where
  sheltered : s.tracked.Sheltered
  place : s.cursor.block = b

variable {b : BlockId} {s : Bench} {o : Operand}

theorem near_read (hidle : Idle s.tracked) (hs : Stays b s) (x : VarId) :
    Ends (liftM (Track.read x s.cursor.block) : Build Operand) s (fun _ => True)
      (Provides (Stays b) (Near b) s) := by
  rw [ends_track]
  refine Ends.of_run fun o t run => ?_
  have hd := Track.didRead_of_run hidle.sane run
  have ht : t.Sheltered := hs.sheltered.read hidle.sane run
  have hpreds : t.graph.preds b = s.graph.preds b := congrFun (congrArg (fun o => o.2.2)
    (Track.outline_of_run (Lower.compositional_still.read _ _) run)) b
  refine ⟨⟨⟨ht, hs.place⟩, fun {a} ha hb => ?_⟩, fun hb => ?_⟩
  · exact (Track.holds_of_run hidle.sane.steady run).atHand (ha (hpreds.symm.trans hb))
  · have hanswer := hd.answer
    rw [hs.place] at hanswer
    exact (Tracked.Reads.again hanswer).atHand (hd.sane hidle.sane) ht.housed hb

theorem near_put {ty : Ty} {origin : Origin} {i : Instr} {v : ValueId} {q : Pointed}
    (hs : Stays b s) (hput : Put ⟨s.graph, s.cursor⟩ ty origin i v q) :
    Provides (Stays b) (Near b) s (.value v) (s.repoint q) := by
  obtain ⟨place, hg⟩ := hput.graph
  obtain rfl := hput.name
  have hb : (⟨s.graph, s.cursor⟩ : Pointed).cursor.block = b := hs.place
  rw [hb] at hg
  obtain ⟨g, cursor⟩ := q
  obtain rfl : g = _ := hg
  refine ⟨⟨⟨hs.sheltered.withInstr b place ty origin i, ?_⟩, fun {a} ha hp => ?_⟩, fun _ => ?_⟩
  · rw [show cursor = _ from hput.cursor]
    exact hs.place
  · have hp' : s.graph.preds b = [] := (s.graph.preds_withInstr b place ty origin i b).symm.trans hp
    exact (ha hp').mono fun w hw => Graph.owns_withInstr hw b place ty origin i
  · refine Graph.atHand_value (Graph.owns_iff.2 ?_)
    rw [show Graph.owner? _ _ = _ from s.graph.owner?_withInstr b place ty origin i _, if_pos rfl]

theorem near_mark (hs : Stays b s) (ho : s.graph.Anchors o) (x : VarId) :
    Ends (markPartial x o) s (fun _ => True) fun _ t => Upholds (Stays b) (Near b) s t := by
  refine (ends_markPartial ho.knows).mono fun _ t ⟨u, halike, ht⟩ => ?_
  subst ht
  refine ⟨⟨hs.sheltered.alike halike, hs.place⟩, fun {a} ha hp => ?_⟩
  have hp' : s.graph.preds b = [] := (Graph.preds_congr (halike.graph.shape b)).symm.trans hp
  refine (ha hp').mono fun w hw => Graph.owns_iff.2 ?_
  exact (halike.graph.owner? w).trans (Graph.owns_iff.1 hw)

/-- **What is lowered at the end of a block to which nothing leads is at hand there.** -/
theorem provision_near (p : Program) (b : BlockId) :
    Provision (fun _ _ => True) (fun s => Idle s.tracked ∧ Stays b s)
      fun g o => g.Anchors o ∧ Near b g o :=
  (provision_anchors p).and (fun g c _ => g.atHand_lit b c) near_read
    (fun _ hs _ hput => near_put hs hput) fun _ hs ho _ => near_mark hs ho

end Build

end BitFlow
