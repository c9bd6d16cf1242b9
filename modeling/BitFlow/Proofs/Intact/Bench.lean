import BitFlow.Proofs.Build.Provision
import BitFlow.Proofs.Constant.Given
import BitFlow.Proofs.Intact.Read

/-!
# Intact benches

A bench is intact if its graph and its tables are. Whatever is read, emitted or written there leaves
it intact, with an answer or with a fault. The operands need not exist: an instruction may name a
value that does not.

Main statements: `Track.leaves_read`, `Track.leaves_sealBlock` -- a read or a seal that fails has
changed nothing; `Bench.Intact.provision` -- what expressions are lowered to leaves a bench intact;
`Bench.Intact.leaves_write`.
-/

namespace BitFlow

/-- After a fault nothing has changed, unless the fault is that of a search without end. -/
def Unmoved {σ : Type} (s : σ) (e : Fault) (t : σ) : Prop := e = .endless ∨ t = s

theorem Unmoved.refl {σ : Type} (s : σ) (e : Fault) : Unmoved s e s := .inr rfl

/-! ## 1. Reads and seals that fail -/

namespace Track

variable {α β : Type} {s : Tracked} {x : VarId} {b : BlockId}

/-- The declaration of a variable is looked up. -/
theorem looked_declaration {E : Fault → Tracked → Prop} {Q : β → Tracked → Prop}
    {f : Variable → Track β} (hE : ∀ e, E e s)
    (hf : ∀ d, variableById? s.reaching.vars x = some d → Leaves (f d) s E Q) :
    Leaves (declaration x >>= f) s E Q :=
  .looked (looks_declaration x) (ends_declaration (fun _ => trivial) fun _ hd => hd) hE hf

/-- A block is looked up. -/
theorem looked_block {E : Fault → Tracked → Prop} {Q : β → Tracked → Prop} {f : Block → Track β}
    (hE : ∀ e, E e s) (hf : ∀ y, s.graph.block? b = some y → Leaves (f y) s E Q) :
    Leaves ((liftM (Edit.block b) : Track Block) >>= f) s E Q :=
  .looked (.focus (fun _ => rfl) (Edit.looks_block b))
    ((ends_lift _).2 (Edit.ends_block_or trivial fun _ hy => hy)) hE hf

/-- **A read fails only where there is nothing to read**, unless it never comes to an end. -/
theorem leaves_readWithin (n : Nat) (hs : s.Intact) :
    Leaves (readWithin n x b) s (Unmoved s) fun o t => s.Quiet t ∧ t.Intact ∧
      ∃ d, variableById? s.reaching.vars x = some d ∧ t.graph.typeOf? o = some d.ty := by
  unfold readWithin
  rw [Leaves.bind_iff, Leaves.get_iff]
  cases hx : s.reaching.definition? x b with
  | some o =>
    obtain ⟨d, hd, ho⟩ := hs.defs hx
    exact ⟨.refl s, hs, d, hd, hs.graph.typeOf?_resolve ho⟩
  | none =>
    cases n with
    | zero => exact .inl rfl
    | succ n =>
      by_cases hknown : (∃ d, variableById? s.reaching.vars x = some d) ∧
          ∃ y, s.graph.block? b = some y
      · obtain ⟨⟨d, hd⟩, hb⟩ := hknown
        have h := intact_readWithin (n + 1) s b hs hb hd
        unfold readWithin Succeeds at h
        rw [Ends.bind_iff, Ends.get_iff, hx] at h
        exact Leaves.mono h (fun _ _ he => .inl he) fun _ _ h => ⟨h.1, h.2.1, d, hd, h.2.2⟩
      · refine Leaves.seq (P := fun _ _ => False) ?_ fun _ _ h => h.elim
        exact looked_declaration (.refl s) fun d hd => looked_block (.refl s) fun y hy =>
          absurd ⟨⟨d, hd⟩, y, hy⟩ hknown

theorem leaves_read (hs : s.Intact) (x : VarId) (b : BlockId) :
    Leaves (read x b) s (Unmoved s) fun o t => s.Quiet t ∧ t.Intact ∧
      ∃ d, variableById? s.reaching.vars x = some d ∧ t.graph.typeOf? o = some d.ty :=
  leaves_readWithin _ hs

/-- **A block cannot be sealed if it does not exist or is sealed already**, and for no other reason,
    unless some read never comes to an end. -/
theorem leaves_sealBlock (hs : s.Intact) (b : BlockId) :
    Leaves (sealBlock b) s (Unmoved s) fun _ t => t.reaching.vars = s.reaching.vars ∧
      t.Intact := by
  cases hb : s.graph.block? b with
  | none =>
    refine looked_block (.refl s) fun y hy => ?_
    cases hb.symm.trans hy
  | some y =>
    cases hy : y.isSealed with
    | true =>
      refine looked_block (.refl s) fun y' hy' => ?_
      cases hb.symm.trans hy'
      rw [hy]
      exact .refl s _
    | false =>
      exact Leaves.mono (intact_sealBlock hs hb hy) (fun _ _ he => .inl he) fun _ _ h => h

end Track

/-! ## 2. Intact benches -/

/-- **Graph and tables of the bench are intact**, and these are its variables. -/
structure Bench.Intact (vars : List Variable) (s : Bench) : Prop where
  tracked : s.tracked.Intact
  vars : s.reaching.vars = vars

namespace Bench.Intact

variable {vars : List Variable} {s : Bench} {q : Pointed} {ty : Ty} {origin : Origin} {i : Instr}
  {v : ValueId} {o : Operand}

/-- **An instruction is put in**, whatever its operands. -/
theorem put (hs : s.Intact vars) (h : Put ⟨s.graph, s.cursor⟩ ty origin i v q) :
    (s.repoint q).Intact vars := by
  obtain ⟨g, c⟩ := q
  obtain ⟨-, ⟨y, hy, -, hg⟩, -⟩ := h
  change g = s.graph.withInstr _ _ _ _ _ at hg
  subst hg
  refine ⟨hs.tracked.onGraph (hs.tracked.graph.withInstr hy _ ty origin i)
    (.withInstr _ _ _ _ _ _) (fun _ hp => (Graph.phi?_withInstr ..).trans hp)
    fun {w a} hw hu => ?_, hs.vars⟩
  unfold Graph.withInstr at hu
  rcases (Graph.mem_users_addUses _ _ _ _ _).1 hu with ⟨e, -⟩ | hu
  · cases e
    exact absurd (hs.tracked.free_of_value?_eq_none s.graph.value?_nextValue) hw
  · exact hu

/-- Names and origins play no part. -/
theorem alike (hs : s.Intact vars) {g : Graph} (ha : s.graph.Alike g) :
    ({ s with graph := g } : Bench).Intact vars :=
  ⟨hs.tracked.alike ⟨ha, rfl, rfl, rfl, rfl, rfl⟩, hs.vars⟩

/-- **What expressions are lowered to leaves a bench intact**, whichever way that ends, unless a
    read never comes to an end. -/
theorem provision (vars : List Variable) :
    Provision (fun e t => e = .endless ∨ t.Intact vars) (Bench.Intact vars) fun _ _ => True where
  stop := fun hs _ => .inr hs
  lit := fun _ _ => trivial
  read := fun {s} hs x => (Leaves.focus_iff _).2 <|
    (Track.leaves_read hs.tracked x s.cursor.block).mono
      (fun _ _ ht => ht.imp_right fun e => by
        subst e
        exact hs)
      fun _ _ ⟨hq, hi, _⟩ => ⟨⟨⟨hi, hq.vars.trans hs.vars⟩, id⟩, trivial⟩
  put := fun hs _ h => ⟨⟨hs.put h, id⟩, trivial⟩
  mark := fun hs _ x => (Build.leaves_markPartial x _ _).mono (fun _ _ e => .inr (e ▸ hs))
    fun _ _ ⟨_, ha, e⟩ => ⟨e ▸ hs.alike ha, id⟩

/-! ## 3. Operators, blocks and edges -/

/-- **An operator leaves a bench intact**, and where it fails it has changed nothing. -/
theorem leaves_single {α : Type} {x : Emit α} (hx : Emit.Single x) (hs : s.Intact vars) :
    Leaves (liftM x : Build α) s (fun _ t => t = s) fun _ t => t.Intact vars := by
  refine (Leaves.focus_iff _).2 ((hx ⟨s.graph, s.cursor⟩).mono (fun _ q hq => ?_) fun _ q hq => ?_)
  · subst hq
    rfl
  · rcases hq with rfl | ⟨ty, origin, i, v, hput⟩
    · exact hs
    · exact hs.put hput

/-- **A new edge leaves a bench intact**, and where it is refused nothing has changed. -/
theorem leaves_addEdge (hs : s.Intact vars) (p : BlockId) (cond : Option Operand) (b : BlockId) :
    Leaves (liftM (Edit.addEdge p cond b) : Build Unit) s (fun _ t => t = s)
      fun _ t => t.Intact vars := by
  refine .of_both (Build.atomic_edit (Edit.atomic_addEdge p cond b) s)
    ((Build.ends_edit _).2 (Edit.ends_addEdge_or ?_ ?_))
  · exact hs
  · intro z hz
    refine ⟨hs.tracked.onGraph (hs.tracked.graph.link hz cond b) (.link _ p cond b)
      (fun _ hp => (Graph.phi?_link ..).trans hp) fun _ hu => ?_, hs.vars⟩
    rcases (Graph.mem_users_link _ _ _ _ _ _).1 hu with ⟨e, -⟩ | hu
    · cases e
    · exact hu

/-- A new block leaves a bench intact. -/
theorem leaves_addBlock (hs : s.Intact vars) (label : String) (kind : BlockKind) :
    Leaves (liftM (Edit.addBlock label kind) : Build BlockId) s (fun _ t => t = s)
      fun _ t => t.Intact vars :=
  ⟨hs.tracked.onGraph (hs.tracked.graph.pushBlock label kind) (.pushBlock _ label kind)
    (fun _ hp => hp) fun _ hu => hu, hs.vars⟩

/-! ## 4. Writes -/

/-- What is recorded is of the type of its variable. -/
theorem ends_keep {x : VarId} {d : Variable} {whole : Operand}
    (hs : s.Intact vars) (hd : variableById? vars x = some d)
    (hty : s.graph.typeOf? whole = some d.ty) (b : BlockId) :
    Ends (Build.keep x b whole) s (fun _ => False) fun _ t => t.Intact vars := by
  have hd' : variableById? s.reaching.vars x = some d := hs.vars ▸ hd
  unfold Build.keep
  rw [Ends.bind_iff, Build.ends_track, Track.ends_onTables, Ends.bind_iff, Build.ends_track]
  refine (Track.ends_nameAfter (s := s.tracked.recorded x b whole) (Graph.knows_of_typeOf? hty)
    fun hn => ?_).mono fun _ t ht => ?_
  · cases hd'.symm.trans hn
  · exact ⟨(hs.tracked.record hd' hty b).alike ht, ht.vars.trans hs.vars⟩

/-- What a splice makes is of the type of the variable. -/
theorem typeOf?_splice (d : Variable) (r : BitRange) (b : BlockId) (o : Operand) (site : String)
    (s : Bench) : Ends (Build.splice d r b o site) s (fun _ => True)
      fun whole t => t.graph.typeOf? whole = some d.ty := by
  refine Leaves.any_iff.1 (Build.leaves_splice (fun _ => trivial) fun _ _ _ _ _ _ =>
    Leaves.any_iff.2 (Ends.skip fun old s₁ => ?_))
  unfold Build.assemble
  refine Ends.skip fun above s₂ => Ends.skip fun below s₃ => Ends.skip fun joined s₄ => ?_
  rw [Ends.bind_iff, Build.ends_emit]
  refine Emit.ends_cast.mono fun whole q hwhole => ?_
  rw [Ends.bind_iff]
  refine (Build.ends_markPartial (Graph.knows_of_typeOf? hwhole.typeOf?)).mono
    fun _ _ ⟨t, ht, ht'⟩ => ?_
  subst ht'
  exact (ht.graph.typeOf? whole).trans hwhole.typeOf?

/-- **A write leaves a bench intact**, whichever way it ends, unless a read never comes to an
    end. -/
theorem leaves_write (hs : s.Intact vars) (x : VarId) (ranges : List BitRange) (b : BlockId)
    (o : Operand) :
    Leaves (Build.write x ranges b o) s (fun e t => e = .endless ∨ t.Intact vars)
      fun _ t => t.Intact vars := by
  refine Build.leaves_write (fun _ => .inr hs) (fun d hd hty => ?_) fun d r site hd => ?_
  · exact .of_ends (ends_keep hs (hs.vars ▸ hd) hty b)
  · have hsplice := (provision vars).splice hs trivial d r b site
      (o := o)
    refine (hsplice.and (typeOf?_splice d r b o site s)).mono (fun _ _ he => he)
      fun whole t ⟨ht, hty⟩ => ?_
    exact .of_ends (ends_keep ht.state (hs.vars ▸ hd) hty b)

end Bench.Intact

end BitFlow
