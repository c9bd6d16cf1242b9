import BitFlow.Proofs.Session.Basic

/-!
# What a session answers

Whatever the order of its commands, a session keeps the bench a drawing of what was written. When
all blocks are sealed and reached, a read answers with an operand whose token, on every route, is
the one that was last written.

Main statements: `Log.faithful_performAll` -- every session is faithful to its draft;
`Log.read_token` -- what a read answers.
-/

namespace BitFlow

/-! ## 1. Faithful logs -/

namespace Log

/-- **The log is faithful to the draft**: its bench is a drawing of it, the draft has the writes of
    the log, and what was answered in a block is available there. Instructions are their own
    tokens, so they count as computed at the entry. -/
structure Faithful (vars : List Variable) (d : Draft) (l : Log) : Prop where
  drawn : Drawn d l.tracked
  writes : d.writes = l.lastWrite
  vars : l.bench.reaching.vars = vars
  home : ∀ {v b ty i}, d.roles v = some (.code b ty i) → b = l.graph.entry
  entry : l.graph.preds l.graph.entry = []
  known : ∀ {b o}, (b, o) ∈ l.answers → l.graph.Knows o
  avail : ∀ {T : Type} {m : Meaning T}, Models d l.tracked m →
    ∀ {b o}, (b, o) ∈ l.answers → m.Avail o b

variable {vars : List Variable} {d d' : Draft} {l : Log}

/-- A later stage is faithful if its new answers are available. -/
theorem Faithful.next (h : l.Faithful vars d) {l' : Log} (hd : Drawn d' l'.tracked)
    (hl : Later d l.tracked d' l'.tracked) (hw : d'.writes = l'.lastWrite)
    (hv : l'.bench.reaching.vars = l.bench.reaching.vars)
    (hhome : ∀ {v b ty i}, d'.roles v = some (.code b ty i) →
      d.roles v = some (.code b ty i) ∨ b = l.graph.entry)
    (hentry : l'.graph.entry = l.graph.entry) (hpreds : l'.graph.preds l.graph.entry = [])
    (ha : ∀ {b o}, (b, o) ∈ l'.answers → (b, o) ∈ l.answers ∨ (l'.graph.Knows o ∧
      ∀ {T : Type} {m : Meaning T}, Models d' l'.tracked m → m.Avail o b)) :
    l'.Faithful vars d' := by
  refine ⟨hd, hw, hv.trans h.vars, fun {v b ty i} hr => ?_, by rw [hentry]; exact hpreds,
    fun {b o} hm => ?_, fun {T m} hm {b o} ho => ?_⟩
  · rw [hentry]
    exact (hhome hr).elim h.home id
  · rcases ha hm with hm | hm
    · exact (h.known hm).mono hl.size
    · exact hm.1
  · rcases ha ho with ho | ho
    · exact h.avail (hl.models hm) ho
    · exact ho.2 hm

theorem faithful_fresh (name : String) (vars : List Variable) (nameValues : Bool)
    (literalLimit : Nat) : (fresh name vars nameValues literalLimit).Faithful vars .empty where
  drawn := .fresh name vars nameValues
  writes := rfl
  vars := rfl
  home := fun h => by cases h
  entry := rfl
  known := fun h => by cases h
  avail := fun _ _ _ h => by cases h

/-- The names that a log admits are those of values that exist. -/
theorem knows_of_names {o : Operand} (h : l.names o = true) : l.graph.Knows o := by
  intro w hw
  subst hw
  simpa [names, Operand.value?] using h

/-! ## 2. One command -/

theorem Faithful.block (h : l.Faithful vars d) (label : String) :
    Ends (Command.block label).run l.bench (fun _ => True) fun a s =>
      ∃ d', (l.after s a (.block label)).Faithful vars d' := by
  obtain ⟨hd, hl⟩ := h.drawn.pushBlock label .live
  exact ⟨d, h.next hd hl h.writes rfl .inl rfl
    ((l.graph.preds_pushBlock label .live _).trans h.entry) .inl⟩

theorem Faithful.edge (h : l.Faithful vars d) {p b : BlockId} {cond : Option Operand}
    (hb : b ≠ l.graph.entry) (hc : ∀ o ∈ cond, l.graph.Knows o) :
    Ends (Command.edge p cond b).run l.bench (fun _ => True) fun a s =>
      ∃ d', (l.after s a (.edge p cond b)).Faithful vars d' := by
  show Ends (liftM (Edit.addEdge p cond b) >>= fun _ => pure none) l.bench _ _
  rw [Ends.bind_iff, Build.ends_edit]
  -- both blocks exist, or the command fails
  cases hz : l.graph.block? p with
  | none =>
    unfold Edit.addEdge
    rw [Ends.bind_iff]
    refine Edit.ends_block_or trivial fun z hz' => ?_
    cases hz.symm.trans hz'
  | some z =>
    cases hy : l.graph.block? b with
    | none =>
      unfold Edit.addEdge
      rw [Ends.bind_iff, Edit.ends_block hz]
      split
      · exact ⟨d, h.next h.drawn (.refl _ _) h.writes rfl .inl rfl h.entry .inl⟩
      · rw [Ends.bind_iff]
        refine Edit.ends_block_or trivial fun y hy' => ?_
        cases hy.symm.trans hy'
    | some y =>
      refine Edit.ends_addEdge hz hy (fun _ => ?_) (fun _ _ _ => trivial) fun _ hs => ?_
      · exact ⟨d, h.next h.drawn (.refl _ _) h.writes rfl .inl rfl h.entry .inl⟩
      · obtain ⟨hd, hl⟩ := h.drawn.link hz hy hs hc
        refine ⟨d, h.next hd hl h.writes rfl .inl (l.graph.entry_link p cond b) ?_ .inl⟩
        show (l.graph.link p cond b).preds l.graph.entry = []
        rw [Graph.preds_link hy, if_neg fun e => hb e.1]
        exact h.entry

theorem Faithful.instr (h : l.Faithful vars d) {b : BlockId} (position : Option Nat) (ty : Ty)
    (origin : Origin) {i : Instr} (hi : ∀ o ∈ i.operands, l.graph.Knows o) :
    Ends (Command.instr b position ty origin i).run l.bench (fun _ => True) fun a s =>
      ∃ d', (l.after s a (.instr b position ty origin i)).Faithful vars d' := by
  show Ends (discard (liftM (Edit.insertInstr b position ty origin i)) >>= fun _ => pure none)
    l.bench _ _
  rw [Ends.bind_iff, Ends.discard_iff, Build.ends_edit]
  cases hy : l.graph.block? b with
  | none =>
    unfold Edit.insertInstr
    rw [Ends.bind_iff]
    refine Edit.ends_block_or trivial fun y hy' => ?_
    cases hy.symm.trans hy'
  | some y =>
    refine Edit.ends_insertInstr hy (fun _ => trivial) fun _ => ?_
    obtain ⟨hd, hl⟩ := h.drawn.withInstr hy (position.getD y.instrs.length) ty origin hi
      l.graph.entry
    refine ⟨_, h.next hd hl h.writes rfl (fun {v c ty' j} hv => ?_)
      (l.graph.entry_withInstr b _ ty origin i)
      ((l.graph.preds_withInstr b _ ty origin i _).trans h.entry) .inl⟩
    change d.roles.set l.graph.nextValue (.code l.graph.entry ty i) v = _ at hv
    by_cases e : v = l.graph.nextValue
    · rw [e, Roles.set_self] at hv
      cases hv
      exact .inr rfl
    · rw [Roles.set_of_ne _ _ e] at hv
      exact .inl hv

/-- Every path starts at the entry. -/
theorem dom_entry {T : Type} (m : Meaning T) (b : BlockId) : m.Dom m.entry b := by
  intro π hπ
  generalize hρ : b :: π = ρ at hπ
  clear hρ
  induction hπ with
  | entry => exact List.mem_cons_self
  | step _ _ ih => exact List.mem_cons_of_mem _ ih

theorem lastWrite_cons (s : Bench) (x : VarId) (b : BlockId) (o : Operand) :
    (⟨s, ((b, x), o) :: l.writes, l.answers⟩ : Log).lastWrite = l.lastWrite.set b x o := by
  funext c z
  unfold lastWrite Writes.set
  rw [List.lookup_cons]
  by_cases e : c = b ∧ z = x
  · rw [if_pos e, e.1, e.2, beq_self_eq_true]
  · have hne : ((c, z) == (b, x)) = false := by
      rw [beq_eq_false_iff_ne]
      intro hc
      cases hc
      exact e ⟨rfl, rfl⟩
    rw [if_neg e, hne]

theorem Faithful.write (h : l.Faithful vars d) {x : VarId} {b : BlockId} {o : Operand}
    (hb : l.graph.branches b = [])
    (ho : (∀ v, o = .value v → (l.graph.instr? v).isSome = true) ∨ (b, o) ∈ l.answers) :
    Ends (Command.write x b o).run l.bench (fun _ => True) fun a s =>
      ∃ d', (l.after s a (.write x b o)).Faithful vars d' := by
  have hsteady := h.drawn.sane.steady
  have hnone : ∀ c, b ∉ l.graph.preds c := by
    intro c hc
    obtain ⟨br, hbr, -⟩ := hsteady.orderly.edge_iff.2 hc
    rw [show l.tracked.graph.branches b = [] from hb] at hbr
    cases hbr
  have hknown : l.graph.Knows o := by
    rcases ho with ho | ho
    · intro w hw
      obtain ⟨i, hi⟩ := Option.isSome_iff_exists.1 (ho w hw)
      exact (Graph.attached_of_instr? hi).index_lt
    · exact h.known ho
  have havail : ∀ {T : Type} {m : Meaning T}, Models d l.tracked m → m.Avail o b := by
    intro T m hm
    rcases ho with ho | ho
    · -- an instruction counts as computed at the entry
      rintro v rfl
      obtain ⟨i, hi⟩ := Option.isSome_iff_exists.1 (ho v rfl)
      obtain ⟨c, ty, j, hj⟩ := h.drawn.covers.instr hi
      rw [hm.code hj, h.home hj, ← show m.entry = l.graph.entry from hm.fits.entry]
      exact dom_entry m b
    · exact h.avail hm ho
  show Ends (discard (Build.write x [] b o) >>= fun _ => pure none) l.bench _ _
  rw [Ends.bind_iff, Ends.discard_iff]
  refine Build.ends_writeWhole (fun _ => trivial) hknown fun dx t _ ht => ?_
  obtain ⟨hd, hl⟩ := h.drawn.write (x := x) hnone hknown havail
  obtain ⟨hd', hl'⟩ := hd.alike ht
  refine ⟨⟨d.roles, d.writes.set b x o⟩, h.next hd' (hl.trans hl') ?_ ht.vars .inl ht.graph.entry
    ?_ .inl⟩
  · show d.writes.set b x o = _
    rw [h.writes]
    exact (lastWrite_cons _ x b o).symm
  · show t.graph.preds l.graph.entry = []
    rw [Graph.preds_congr (ht.graph.shape _)]
    exact h.entry

theorem Faithful.read (h : l.Faithful vars d) {x : VarId} {b : BlockId}
    (hb : ∃ y, l.graph.block? b = some y) :
    Ends (Command.read x b).run l.bench (fun _ => True) fun a s =>
      ∃ d', (l.after s a (.read x b)).Faithful vars d' := by
  show Ends (liftM (Track.read x b) >>= fun o => pure (some o)) l.bench _ _
  rw [Ends.bind_iff, Build.ends_track]
  refine (Track.ends_read (fun _ => trivial) h.drawn.sane hb (.inl trivial)).mono fun o t ht => ?_
  have hk := ht.kept h.drawn.sane
  obtain ⟨R', hg, hd, hl, hans⟩ := h.drawn.didRead ht
  refine ⟨⟨R', d.writes⟩, h.next hd hl h.writes hk.vars (fun hv => .inl (hg.code hv)) hk.entry
    ((hk.preds _).trans h.entry) fun {c a} hm => ?_⟩
  rcases List.mem_cons.1 hm with e | hm
  · cases e
    refine .inr ⟨?_, fun hm => (hans hm).1⟩
    exact (hd.sane.anchors_reached ht.answer).knows
  · exact .inl hm

theorem Faithful.close (h : l.Faithful vars d) (b : BlockId) :
    Ends (Command.close b).run l.bench (fun _ => True) fun a s =>
      ∃ d', (l.after s a (.close b)).Faithful vars d' := by
  show Ends (liftM (Track.sealBlock b) >>= fun _ => pure none) l.bench _ _
  rw [Ends.bind_iff, Build.ends_track]
  -- the block exists and is not sealed, or the command fails
  by_cases hex : ∃ y, l.graph.block? b = some y ∧ y.isSealed = false
  · obtain ⟨y, hy, hs⟩ := hex
    refine (Track.ends_sealBlock h.drawn.sane hy hs (.inl trivial)).mono
      fun _ t ht => ?_
    obtain ⟨made, u, hst, hfill, -, rfl, hsane, hgone, -⟩ := ht
    have hk := hst.kept (h.drawn.sane.closing b) (Nat.zero_le _)
    obtain ⟨R', hg, hd, hl⟩ := h.drawn.sealed hy hst hfill hsane hgone
    refine ⟨⟨R', d.writes⟩, h.next hd hl h.writes hk.vars (fun hv => .inl (hg.code hv)) hk.entry
      ?_ .inl⟩
    exact (u.graph.preds_withSeal b _).trans ((hk.preds _).trans h.entry)
  · unfold Track.sealBlock
    rw [Ends.bind_iff, Track.ends_lift]
    refine Edit.ends_block_or trivial fun y hy => ?_
    have hs : y.isSealed = true := by
      by_contra hc
      exact hex ⟨y, hy, by simpa using hc⟩
    rw [hs]
    trivial

/-! ## 3. All commands -/

/-- **One command keeps a log faithful.** -/
theorem faithful_perform (h : l.Faithful vars d) {c : Command} {l' : Log}
    (hp : l.perform c = some l') : ∃ d', l'.Faithful vars d' := by
  unfold perform at hp
  split at hp
  · rename_i hadm
    split at hp
    · rename_i answer s hrun
      cases hp
      have hends : Ends c.run l.bench (fun _ => True) fun a s =>
          ∃ d', (l.after s a c).Faithful vars d' := by
        cases c with
        | block label => exact h.block label
        | edge p cond b =>
          simp only [admits, Bool.and_eq_true, decide_eq_true_eq, Option.all_eq_true] at hadm
          exact h.edge hadm.1 fun o ho => knows_of_names (hadm.2 o ho)
        | instr b position ty origin i =>
          simp only [admits, List.all_eq_true] at hadm
          exact h.instr position ty origin fun o ho => knows_of_names (hadm o ho)
        | write x b o =>
          simp only [admits, Bool.and_eq_true, Bool.or_eq_true, List.isEmpty_iff,
            List.contains_iff_mem, Option.all_eq_true] at hadm
          exact h.write hadm.1.2 (hadm.2.imp_left fun ho v hv => ho v (by rw [hv]; rfl))
        | read x b => exact h.read (Option.isSome_iff_exists.1 hadm)
        | close b => exact h.close b
      exact hends.of_ok hrun
    · cases hp
  · cases hp

/-- **A session keeps a log faithful.** -/
theorem faithful_performAll (cs : List Command) :
    ∀ {l : Log} {d : Draft}, l.Faithful vars d → ∀ {l' : Log}, l.performAll cs = some l' →
      ∃ d', l'.Faithful vars d' := by
  induction cs with
  | nil =>
    intro l d h l' hp
    cases hp
    exact ⟨d, h⟩
  | cons c cs ih =>
    intro l d h l' hp
    obtain ⟨l₁, h1, h2⟩ := Option.bind_eq_some_iff.1 hp
    obtain ⟨d₁, hd₁⟩ := faithful_perform h h1
    exact ih hd₁ h2

end Log

/-! ## 4. Tokens told by the draft -/

namespace Draft

variable (d : Draft) (vars : List Variable)

/-- The token of the value `v` where `b` is entered: a phi of `b` takes that of its variable. -/
def phiToken (before : Tokens) (b : BlockId) (v : ValueId) : Operand :=
  match d.roles v with
  | some (.phi c x) => if c = b then before.var x else before.phi v
  | _ => before.phi v

/-- The tokens at the end of a path, told by the draft alone: a phi has what its variable had when
    the block was entered. -/
def tokens : List BlockId → Tokens
  | [] => ⟨.value, fun x => .undef (((variableById? vars x).map Variable.ty).getD .bit)⟩
  | b :: π =>
      let before := tokens π
      let phi := d.phiToken before b
      ⟨phi, fun x =>
        match d.writes b x with
        | some (.value v) => phi v
        | some o => o
        | none => before.var x⟩

theorem tokens_away {entry q : BlockId} {v : ValueId} {π : List BlockId}
    (h : d.homeOf entry v ≠ q) : (d.tokens vars (q :: π)).phi v = (d.tokens vars π).phi v := by
  show d.phiToken (d.tokens vars π) q v = _
  unfold phiToken
  unfold homeOf at h
  split
  · rename_i c x hr
    rw [hr] at h
    exact if_neg h
  · rfl

/-- The meaning of a draft in which every value holds its token. -/
def tokenMeaning (g : Graph) : Meaning Operand where
  entry := g.entry
  edge := fun q b => q ∈ g.preds b
  home := d.homeOf g.entry
  val := fun v π => (d.tokens vars π).phi v
  lit := .lit
  undef := .undef
  store := fun π x => (d.tokens vars π).var x
  val_away := d.tokens_away vars

theorem tokens_code {v : ValueId} {b : BlockId} {ty : Ty} {i : Instr}
    (h : d.roles v = some (.code b ty i)) (π : List BlockId) :
    (d.tokens vars π).phi v = .value v := by
  induction π with
  | nil => rfl
  | cons c π ih =>
    show d.phiToken (d.tokens vars π) c v = _
    unfold phiToken
    rw [h]
    exact ih

/-- At the end of a block a variable has the token that was last written there. -/
theorem tokens_content (g : Graph) {b : BlockId} (π : List BlockId) (x : VarId) :
    (d.tokens vars (b :: π)).var x = (d.tokenMeaning vars g).content d.writes b π x := by
  unfold Meaning.content
  show (match d.writes b x with
    | some (.value v) => (d.tokens vars (b :: π)).phi v
    | some o => o
    | none => (d.tokens vars π).var x) = _
  cases d.writes b x with
  | none => rfl
  | some o => cases o <;> rfl

/-- **The tokens are a meaning of the draft.** -/
theorem models_tokenMeaning {s : Tracked} (hentry : s.graph.preds s.graph.entry = []) :
    Models d s (d.tokenMeaning s.reaching.vars s.graph) where
  fits :=
    { entry := rfl
      edge := id
      closed := fun _ he => he
      no_entry := fun {q} he => by
        change q ∈ s.graph.preds s.graph.entry at he
        rw [hentry] at he
        cases he
      start := fun {x dx} hx => by
        show Operand.undef (((variableById? s.reaching.vars x).map Variable.ty).getD .bit) = _
        rw [hx]
        rfl
      frozen := fun _ π x _ => d.tokens_content s.reaching.vars s.graph π x }
  phi := fun {v b x} hv => by
    refine ⟨?_, fun π _ => ?_⟩
    · exact Draft.homeOf_phi hv s.graph.entry
    · show d.phiToken (d.tokens s.reaching.vars π) b v = (d.tokens s.reaching.vars π).var x
      unfold phiToken
      rw [hv]
      exact if_pos rfl
  code := fun {v b ty i} hv => by
    exact Draft.homeOf_code hv s.graph.entry

end Draft

/-! ## 5. Tokens told by the graph -/

namespace Drawn

variable {d : Draft} {s : Tracked}

/-- The graph and the draft agree on the token of an operand wherever it is available, if they
    agree on those of the available phis. -/
theorem token_eq (h : Drawn d s) (hentry : s.graph.preds s.graph.entry = []) {b : BlockId}
    {π : List BlockId} (hπ : (d.tokenMeaning s.reaching.vars s.graph).Path (b :: π))
    {phi : ValueId → Operand}
    (hphi : ∀ {v p}, s.graph.phi? v = some p →
      (d.tokenMeaning s.reaching.vars s.graph).Dom p.block b →
        phi v = (d.tokens s.reaching.vars (b :: π)).phi v)
    {o : Operand} (hk : s.graph.Knows o)
    (ho : (d.tokenMeaning s.reaching.vars s.graph).Avail o b) :
    s.graph.token phi o = (d.tokenMeaning s.reaching.vars s.graph).mean o (b :: π) := by
  have hm := d.models_tokenMeaning hentry
  obtain ⟨hav, hsame, -⟩ := (h.sound hm).resolve h.sane.steady ho
  have hanch := h.sane.steady.anchors_resolve hk
  rw [← hsame π hπ]
  unfold Graph.token
  cases hr : s.graph.resolve o with
  | lit c => rfl
  | undef ty => rfl
  | value v =>
    rw [hr] at hav hanch
    show (if (s.graph.phi? v).isSome then phi v else Operand.value v) =
      (d.tokens s.reaching.vars (b :: π)).phi v
    rcases Graph.attached_iff.1 (hanch v rfl) with ⟨p, hp⟩ | ⟨i, hi⟩
    · rw [hp]
      refine (if_pos rfl).trans (hphi hp ?_)
      have := hav v rfl
      rwa [(hm.phi (h.covers.phi hp)).home] at this
    · obtain ⟨c, ty, j, hj⟩ := h.covers.instr hi
      have hnone : s.graph.phi? v = none := by
        cases hp : s.graph.phi? v with
        | none => rfl
        | some p =>
          rw [h.covers.phi hp] at hj
          cases hj
      rw [hnone, d.tokens_code _ hj]
      rfl

/-- Where graph and draft agree on the phis, they agree on what a block writes. -/
theorem walkTokens_var (h : Drawn d s) (hentry : s.graph.preds s.graph.entry = []) {b : BlockId}
    {π : List BlockId} (hπ : (d.tokenMeaning s.reaching.vars s.graph).Path (b :: π))
    (hphi : ∀ {v p}, s.graph.phi? v = some p →
      (d.tokenMeaning s.reaching.vars s.graph).Dom p.block b →
        (s.graph.walkTokens s.reaching.vars d.writes (b :: π)).phi v =
          (d.tokens s.reaching.vars (b :: π)).phi v)
    (hvar : ∀ x, (s.graph.walkTokens s.reaching.vars d.writes π).var x =
      (d.tokens s.reaching.vars π).var x) (x : VarId) :
    (s.graph.walkTokens s.reaching.vars d.writes (b :: π)).var x =
      (d.tokens s.reaching.vars (b :: π)).var x := by
  have hm := d.models_tokenMeaning hentry
  rw [d.tokens_content s.reaching.vars s.graph]
  unfold Meaning.content
  cases hw : d.writes b x with
  | none =>
    rw [Graph.walkTokens_of_none hw]
    exact hvar x
  | some o =>
    rw [Graph.walkTokens_of_some hw]
    exact h.token_eq hentry hπ hphi (h.writes_known hw) (h.writes_avail hm hw)

/-- **A walk through the graph gives every variable and every available phi the token that the draft
    tells**, if all blocks are sealed. -/
theorem walkTokens_eq (h : Drawn d s) (hentry : s.graph.preds s.graph.entry = [])
    (hsealed : ∀ {b y}, s.graph.block? b = some y → y.isSealed = true) {ρ : List BlockId}
    (hρ : (d.tokenMeaning s.reaching.vars s.graph).Path ρ) :
    (∀ b π, ρ = b :: π → ∀ {v p}, s.graph.phi? v = some p →
      (d.tokenMeaning s.reaching.vars s.graph).Dom p.block b →
        (s.graph.walkTokens s.reaching.vars d.writes ρ).phi v =
          (d.tokens s.reaching.vars ρ).phi v) ∧
    ∀ x, (s.graph.walkTokens s.reaching.vars d.writes ρ).var x =
      (d.tokens s.reaching.vars ρ).var x := by
  have hm := d.models_tokenMeaning hentry
  have hclosed : ∀ {v p}, s.graph.phi? v = some p → s.graph.isSealed p.block = true := by
    intro v p hp
    obtain ⟨z, hz, hzb, -⟩ := Graph.phi?_eq_some.1 hp
    obtain ⟨y, hy⟩ := h.sane.steady.orderly.owner_known hz hzb
    rw [Graph.isSealed_of_block? hy, hsealed hy]
  induction hρ with
  | entry =>
    -- no phi is left in a block without predecessors
    have hphi : ∀ {v p}, s.graph.phi? v = some p →
        (d.tokenMeaning s.reaching.vars s.graph).Dom p.block s.graph.entry → False := by
      intro v p hp hdom
      have hb : p.block = s.graph.entry := List.mem_singleton.1 (hdom [] .entry)
      refine h.fed hp (hclosed hp) ?_
      rw [hb, hentry]
    refine ⟨fun b π e {v p} hp hdom => ?_, ?_⟩
    · cases e
      exact (hphi hp hdom).elim
    · exact h.walkTokens_var hentry .entry (fun hp hdom => (hphi hp hdom).elim) fun _ => rfl
  | @step q b π hπ he ih =>
    obtain ⟨ihphi, ihvar⟩ := ih
    have hphi : ∀ {v p}, s.graph.phi? v = some p →
        (d.tokenMeaning s.reaching.vars s.graph).Dom p.block b →
          (s.graph.walkTokens s.reaching.vars d.writes (b :: q :: π)).phi v =
            (d.tokens s.reaching.vars (b :: q :: π)).phi v := by
      intro v p hp hdom
      show s.graph.phiToken (s.graph.walkTokens s.reaching.vars d.writes (q :: π)) (some q) b v = _
      unfold Graph.phiToken
      rw [hp]
      by_cases e : p.block = b
      · -- the operand for the edge on which the block is entered
        obtain ⟨hsrc, -⟩ := h.sane.complete hp (by rw [h.idle]; exact List.not_mem_nil)
          fun c x hx => by
            obtain ⟨⟨ty, hp'⟩, -, hopen, -⟩ := h.sane.pending hx
            cases hp.symm.trans hp'
            rw [hclosed hp] at hopen
            cases hopen
        have hq : q ∈ p.sources := by
          rw [hsrc, e]
          exact he
        obtain ⟨⟨o, q'⟩, hin, rfl⟩ := List.mem_map.1 hq
        simp only [if_pos e]
        cases hfind : p.incoming.find? fun a => some a.2 = some q' with
        | none =>
          have := List.find?_eq_none.1 hfind _ hin
          simp at this
        | some a =>
          have ha : a.2 = q' := by
            have := List.find?_some hfind
            simpa using this
          have hmem := List.mem_of_find?_eq_some hfind
          obtain ⟨hav, hmean⟩ := (h.sound hm).incoming (o := a.1) (q := a.2) hp hmem
          rw [ha] at hav hmean
          show s.graph.token _ a.1 = (d.tokenMeaning s.reaching.vars s.graph).val v (b :: q' :: π)
          rw [h.token_eq hentry hπ (ihphi q' π rfl) (h.sane.steady.phi_anchors hp a.1
            (List.mem_map.2 ⟨a, hmem, rfl⟩)).knows hav, hmean π hπ]
          have hold := (hm.phi (h.covers.phi hp)).val (q' :: π)
          rw [e] at hold
          exact (hold (hπ.step he)).symm
      · simp only [if_neg e]
        have hhome : d.homeOf s.graph.entry v ≠ b := by
          rw [show d.homeOf s.graph.entry v = _ from (hm.phi (h.covers.phi hp)).home]
          exact e
        rw [d.tokens_away s.reaching.vars hhome]
        refine ihphi q π rfl hp fun π' hπ' => ?_
        exact (List.mem_cons.1 (hdom (q :: π') (hπ'.step he))).resolve_left e
    refine ⟨fun b' π' e => ?_, h.walkTokens_var hentry (hπ.step he) hphi ihvar⟩
    cases e
    exact hphi

end Drawn

/-! ## 6. The answer of a read -/

/-- **What a read answers.** After any session in the end of which all blocks are sealed and
    reached, a read of a declared variable at the end of a block succeeds, and on every route there
    its answer has the token that was last written to the variable on that route. -/
theorem Log.read_token (name : String) (vars : List Variable) (nameValues : Bool)
    (literalLimit : Nat) (cs : List Command) {l : Log}
    (hl : (fresh name vars nameValues literalLimit).performAll cs = some l)
    (hsealed : ∀ b y, l.graph.block? b = some y → y.isSealed = true)
    (hreached : ∀ b y, l.graph.block? b = some y → l.graph.Reached b)
    {x : VarId} {dx : Variable} (hx : variableById? vars x = some dx) {b : BlockId} {y : Block}
    (hb : l.graph.block? b = some y) :
    ∃ o t, (Track.read x b).run l.tracked = .ok o t ∧ ∀ π, l.graph.Route (b :: π) →
      t.graph.token (t.graph.walkTokens vars l.lastWrite (b :: π)).phi o =
        (t.graph.walkTokens vars l.lastWrite (b :: π)).var x := by
  obtain ⟨d, hd⟩ := faithful_performAll cs (faithful_fresh name vars nameValues literalLimit) hl
  have horderly := hd.drawn.sane.steady.orderly
  have hgrounded : l.graph.Grounded := by
    refine Graph.grounded_of_reached horderly hd.entry fun c q hq => ?_
    obtain ⟨⟨z, hz⟩, -⟩ := horderly.block_of_mem_preds hq
    exact hreached q z hz
  -- no fault is possible
  have hread : Ends (Track.read x b) l.tracked (fun _ => False)
      (Track.DidRead none x b l.tracked) := by
    refine Track.ends_read (fun hn => ?_) hd.drawn.sane ⟨y, hb⟩ (.inr hgrounded)
    rw [show l.tracked.reaching.vars = vars from hd.vars, hx] at hn
    cases hn
  cases hrun : (Track.read x b).run l.tracked with
  | error e t => exact (hread.of_error hrun).elim
  | ok o t =>
    have hdid := hread.of_ok hrun
    have hk := hdid.kept hd.drawn.sane
    obtain ⟨R', -, hdrawn, -, hans⟩ := hd.drawn.didRead hdid
    have hentry : t.graph.preds t.graph.entry = [] := by
      rw [hk.entry, hk.preds]
      exact hd.entry
    have hall : ∀ {c z}, t.graph.block? c = some z → z.isSealed = true := by
      intro c z hz
      obtain ⟨z', hz', e⟩ := hk.block_back hz
      have : z.isSealed = z'.isSealed := congrArg Shape.isSealed e
      rw [this, hsealed c z' hz']
    refine ⟨o, t, rfl, fun π hπ => ?_⟩
    rw [← hd.writes, ← show t.reaching.vars = vars from hk.vars.trans hd.vars]
    -- the route is a path of the meaning in which every value holds its token
    have hpath : (Draft.tokenMeaning ⟨R', d.writes⟩ t.reaching.vars t.graph).Path (b :: π) := by
      have := hπ.mono fun p c hpc => (hk.preds c).symm ▸ horderly.edge_iff.1 hpc
      show Trail t.graph.entry _ _
      rw [hk.entry]
      exact this
    have hm := Draft.models_tokenMeaning ⟨R', d.writes⟩ hentry
    obtain ⟨hav, hmean⟩ := hans hm
    obtain ⟨hphi, hvar⟩ := hdrawn.walkTokens_eq hentry hall hpath
    have hknown := (hdrawn.sane.anchors_reached hdid.answer).knows
    rw [hdrawn.token_eq hentry hpath (hphi b π rfl) hknown hav, hvar x, hmean π hpath]
    exact (Draft.tokens_content ⟨R', d.writes⟩ t.reaching.vars t.graph π x).symm

/-- The variables of `loopCommands`. -/
def loopVars : List Variable := [⟨⟨0⟩, "a", .unsigned 8, []⟩, ⟨⟨1⟩, "b", .unsigned 8, []⟩]

/-- A loop: its head is read while the edge back is unknown, and the body keeps what it reads in a
    second variable before it writes the first. -/
def loopCommands : List Command :=
  [.close ⟨0⟩, .block "head", .block "body", .write ⟨0⟩ ⟨0⟩ (.lit (.ofNat 1 (.unsigned 8))),
    .edge ⟨0⟩ none ⟨1⟩, .read ⟨0⟩ ⟨1⟩, .edge ⟨1⟩ none ⟨2⟩, .close ⟨2⟩, .read ⟨0⟩ ⟨2⟩,
    .write ⟨1⟩ ⟨2⟩ (.value ⟨0⟩),
    .instr ⟨2⟩ none (.unsigned 8) .expression ⟨.assign, [.value ⟨0⟩], none⟩,
    .write ⟨0⟩ ⟨2⟩ (.value ⟨1⟩), .edge ⟨2⟩ none ⟨1⟩, .close ⟨1⟩]

/-- In the loop, a read of the second variable at the head answers with what the body kept. -/
theorem Log.read_token_loop :
    ∃ l, (fresh "loop" loopVars false 128).performAll loopCommands = some l ∧
      ∃ o t, (Track.read ⟨1⟩ ⟨1⟩).run l.tracked = .ok o t ∧ ∀ π, l.graph.Route (⟨1⟩ :: π) →
        t.graph.token (t.graph.walkTokens loopVars l.lastWrite (⟨1⟩ :: π)).phi o =
          (t.graph.walkTokens loopVars l.lastWrite (⟨1⟩ :: π)).var ⟨1⟩ := by
  have hsome : ((fresh "loop" loopVars false 128).performAll loopCommands).isSome = true := by
    decide +kernel
  obtain ⟨l, hl⟩ := Option.isSome_iff_exists.1 hsome
  have hcheck : ((fresh "loop" loopVars false 128).performAll loopCommands).all (fun l =>
      decide (l.graph.entry = ⟨0⟩ ∧ l.graph.blocks.toList.all Block.isSealed = true ∧
        l.graph.blocks.size = 3 ∧ l.graph.Edge ⟨0⟩ ⟨1⟩ ∧ l.graph.Edge ⟨1⟩ ⟨2⟩)) = true := by
    decide +kernel
  rw [hl] at hcheck
  obtain ⟨hentry, hsealed, hsize, he1, he2⟩ := of_decide_eq_true hcheck
  have h0 : l.graph.Reached ⟨0⟩ := hentry ▸ l.graph.reached_entry
  have h1 := h0.step he1
  have hlt : 1 < l.graph.blocks.size := by
    rw [hsize]
    decide
  have hy : l.graph.block? ⟨1⟩ = some (l.graph.blocks[1]) := Array.getElem?_eq_getElem hlt
  refine ⟨l, hl, read_token _ _ _ _ _ hl (fun b y hb => ?_) (fun b y hb => ?_) rfl hy⟩
  · exact List.all_eq_true.1 hsealed y (Array.mem_def.1 (Array.mem_of_getElem? hb))
  · obtain ⟨n⟩ := b
    have hn : n < 3 := hsize ▸ Graph.index_lt_of_block? hb
    rcases (by omega : n = 0 ∨ n = 1 ∨ n = 2) with rfl | rfl | rfl
    · exact h0
    · exact h1
    · exact h1.step he2

end BitFlow
