import BitFlow.Proofs.Move.Shelter

/-!
# What statements are made of is done by moves

Whatever a statement does to the graph under construction, it does by moves. Here are its parts; the
conditions of edges have been made truth values before, and an edge leads to a live block.

Main statements: `Lower.moves_addEdge` -- edges; `Lower.moves_portRead`, `Lower.moves_portWrite` --
accesses to ports.
-/

namespace BitFlow

namespace Lower

variable {p : Program} {α β : Type}

/-! ## 1. Actions made of moves -/

/-- **The action is a chain of moves**, from wherever graph and tables are consistent. -/
def Makes (p : Program) (x : Lower α) : Prop :=
  ∀ l : Lowering, Idle l.tracked →
    Ends x l (fun _ => True) fun _ l' => Moves p l.tracked l'.tracked

namespace Makes

theorem bind {x : Lower α} {f : α → Lower β} (hx : Makes p x) (hf : ∀ a, Makes p (f a)) :
    Makes p (x >>= f) := by
  intro l hl
  rw [Ends.bind_iff]
  refine (hx l hl).mono fun a l₁ h₁ => ?_
  exact (hf a l₁ (h₁.idle hl)).mono fun _ _ h₂ => h₁.trans h₂

/-- What leaves graph and tables alone. -/
theorem of_keeps {x : Lower α} (h : Keeps Lowering.tracked x) : Makes p x :=
  fun l _ => (h l).mono fun _ l' (e : l'.tracked = _) => by
    rw [e]
    exact .refl _

/-- What leaves everything alone. -/
theorem of_look {x : Lower α} (h : Keeps id x) : Makes p x :=
  .of_keeps fun l => (h l).mono fun _ _ e => congrArg Lowering.tracked e

end Makes

/-! ## 2. Looks -/

theorem keeps_knownCondition (e : Expr) :
    Keeps id (liftM (Build.knownCondition e) : Lower (Option Bool)) := fun _ => rfl

theorem keeps_block (b : BlockId) : Keeps id (liftM (Edit.block b) : Lower Block) := by
  intro l
  rw [ends_edit]
  exact Edit.ends_block_or trivial fun _ _ => rfl

theorem keeps_declaration (x : VarId) :
    Keeps id (liftM (Track.declaration x) : Lower Variable) := by
  intro l
  rw [ends_track]
  exact Track.ends_declaration (fun _ => trivial) fun _ _ => rfl

theorem keeps_selectedRange (s : Selector) (width : Nat) (site : String) :
    Keeps id (selectedRange s width site) := by
  have hbound : ∀ e, Keeps id (liftM (Build.bound e site) : Lower Nat) := fun e l =>
    (ends_build _).2 (Build.ends_bound tolerates_all fun _ _ => rfl)
  have hwithin : ∀ r : BitRange, Keeps id
      (if r.Within width then Pure.pure r else throw (.outOfRange r.msb r.lsb width site) :
        Lower BitRange) := by
    intro r
    split
    · exact .pure r
    · exact .throw _
  unfold selectedRange
  cases s with
  | bit pos =>
    dsimp only
    split
    · exact .bind (.pure _) hwithin
    · exact .bind (.throw _) hwithin
  | range msb lsb =>
    exact .bind (hbound msb) fun hi => .bind (hbound lsb) fun lo => .bind (.pure _) hwithin

theorem keeps_selectedRanges (ss : List Selector) (width : Nat) (site : String) :
    Keeps id (selectedRanges ss width site) := by
  unfold selectedRanges
  split
  · exact .pure _
  · exact .bind (keeps_selectedRange _ _ _) fun _ => .pure _
  · exact .throw _

/-! ## 3. Blocks, edges and labels -/

theorem makes_enter (b : BlockId) : Makes p (enter b) := .of_keeps fun _ => rfl

theorem makes_freshLabel (construct : String) : Makes p (freshLabel construct) :=
  .of_keeps fun _ => rfl

theorem makes_addBreak (b : BlockId) : Makes p (addBreak b) := by
  refine .of_keeps fun l => ?_
  unfold addBreak
  rw [Ends.modify_iff]
  split <;> rfl

theorem makes_addBlock (label : String) (kind : BlockKind) :
    Makes p (liftM (Edit.addBlock label kind) : Lower BlockId) := by
  intro l _
  rw [ends_edit]
  exact Moves.single (.block (s := l.tracked) label kind)

theorem makes_newBlock (label : String) (parent : BlockId) : Makes p (newBlock label parent) :=
  .bind (.of_look (keeps_block parent)) fun _ => makes_addBlock _ _

/-- **An edge** from a live block to a live block, whose condition is a truth value. -/
theorem moves_addEdge {l : Lowering} {q b : BlockId} {cond : Option Operand}
    (hlive : l.bench.graph.kind? q = some .live → l.bench.graph.kind? b = some .live)
    (hc : ∀ o, cond = some o → l.tracked.graph.typeOf? o = some .bit) :
    Ends (liftM (Edit.addEdge q cond b) : Lower Unit) l (fun _ => True) fun _ l' =>
      Moves p l.tracked l'.tracked := by
  rw [ends_edit]
  cases hq : l.bench.graph.block? q with
  | none =>
    unfold Edit.addEdge
    rw [Ends.bind_iff]
    refine Edit.ends_block_or trivial fun z hz => ?_
    rw [hq] at hz
    cases hz
  | some z =>
    cases hb : l.bench.graph.block? b with
    | none =>
      unfold Edit.addEdge
      rw [Ends.bind_iff, Edit.ends_block hq]
      split
      · exact .refl _
      · rw [Ends.bind_iff]
        refine Edit.ends_block_or trivial fun y hy => ?_
        rw [hb] at hy
        cases hy
    | some y =>
      refine Edit.ends_addEdge hq hb (fun _ => .refl _) (fun _ _ _ => trivial) fun hz hfits => ?_
      have hy := (Graph.live_iff hb).1 (hlive ((Graph.live_iff hq).2 hz))
      exact Moves.single (.edge (s := l.tracked) hq hb hy hfits hc)

/-- A block that nothing leads to is marked as one that nothing reaches. -/
theorem moves_kill {l : Lowering} {b : BlockId} {y : Block} (hy : l.bench.graph.block? b = some y)
    (hpreds : y.preds.isEmpty = true) :
    Ends (liftM (Edit.updateBlock b fun x => { x with kind := .unreachable }) : Lower Unit) l
      (fun _ => True) fun _ l' => Moves p l.tracked l'.tracked := by
  rw [ends_edit, Edit.ends_updateBlock hy]
  have hbare : l.tracked.graph.preds b = [] := by
    show ((l.bench.graph.block? b).map Block.shape |>.map Shape.preds).getD [] = []
    rw [hy]
    exact List.isEmpty_iff.1 hpreds
  exact Moves.single (.kill (s := l.tracked) hbare)

/-! ## 4. Ports -/

/-- A port is found at its place, and it admits the access. -/
theorem ends_portAt {q : PortId} {access : Access} {site : String} {l : Lowering}
    {Q : Port → Lowering → Prop}
    (hQ : ∀ port ∈ p.ports, (match access with
      | .read => port.direction = .input
      | .write => port.direction = .output) → Q port l) :
    Ends (portFor p q access site) l (fun _ => True) Q := by
  unfold portFor
  split
  · trivial
  · rename_i port hport
    have hmem : port ∈ p.ports := List.mem_of_getElem? hport
    split
    · rename_i hdir
      exact hQ port hmem hdir
    · rename_i hdir
      exact hQ port hmem hdir
    · trivial

theorem keeps_portFor (p : Program) (q : PortId) (access : Access) (site : String) :
    Keeps id (portFor p q access site) := fun _ => ends_portAt fun _ _ _ => rfl

/-- The instruction that reads an input port of the program. -/
theorem moves_portRead {l : Lowering} {port : Port} (hport : port ∈ p.ports)
    (hdir : port.direction = .input) :
    Ends (liftM (Emit.portRead port.id port.ty) : Lower Operand) l (fun _ => True) fun o l' =>
      Moves p l.tracked l'.tracked ∧ l'.tracked.graph.Anchors o := by
  rw [ends_emit, Build.ends_emit]
  unfold Emit.portRead
  rw [Ends.bind_iff]
  refine Emit.ends_instr.mono fun v q hv => ⟨?_, hv.anchors⟩
  refine (hv.emitted (p := p) [] rfl ⟨trivial, fun hu => ?_, fun _ => ⟨_, rfl⟩⟩).moves _
  cases hu
  exact ⟨rfl, port, hport, rfl, rfl, hdir, rfl⟩

/-- The instruction that writes an operand of the right type to an output port of the program. -/
theorem moves_portWrite {l : Lowering} {port : Port} {o : Operand} (hport : port ∈ p.ports)
    (hdir : port.direction = .output) (ho : l.tracked.graph.typeOf? o = some port.ty) :
    Ends (liftM (Emit.portWrite port.id o) : Lower ValueId) l (fun _ => True) fun _ l' =>
      Moves p l.tracked l'.tracked := by
  rw [ends_emit, Build.ends_emit]
  unfold Emit.portWrite
  rw [Ends.bind_iff]
  refine Emit.ends_operandType fun ty hty => ?_
  refine Emit.ends_instr.mono fun v q hv => ?_
  cases hty.symm.trans ho
  refine (hv.emitted (p := p) _ (Emit.types_one hty) ⟨rfl, fun hu => ?_, fun _ => ⟨_, rfl⟩⟩).moves _
  cases hu
  exact ⟨rfl, port, hport, rfl, rfl, hdir, rfl⟩

end Lower

/-! ## 5. The start -/

theorem Idle.start (p : Program) (s : Settings) : Idle (Lowering.start p s).tracked :=
  ⟨.fresh p.name p.vars s.nameValues, rfl⟩

/-- At the start there is one block, which is live and records nothing. -/
theorem Tracked.Founded.start (p : Program) (s : Settings) :
    (Lowering.start p s).tracked.Founded := by
  refine ⟨.start p s, fun {b} hb => ?_, fun b x o _ ho => by cases ho⟩
  obtain ⟨_ | n⟩ := b
  · cases hb
  · cases hb

end BitFlow
