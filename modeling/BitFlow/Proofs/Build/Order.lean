import BitFlow.Proofs.Build.Insertion
import BitFlow.Proofs.Intact.Operation
import BitFlow.Proofs.Reaching.Early

/-!
# New instructions stand in order

An operator takes operands that are there, so the operands of a new instruction are older than it.
Only a phi among them can be replaced later, while the expression is still being lowered, and not by
a new instruction, for no phi has one as operand. New instructions stand in the order in which they
were made; therefore each stands behind those that it uses.

This needs that the bench is self-contained: nothing names a value that is still to come. Every
bench that can be built is.

Main statement: `Bench.emits_in_order`.
-/

namespace BitFlow

variable {n : Nat}

/-! ## 1. Self-contained benches -/

/-- **No phi, no forward and no definition names a value that is not there.** -/
structure Tracked.SelfContained (s : Tracked) : Prop where
  phis : ∀ {v x o}, s.graph.value? v = some x → x.isPhi = true → o ∈ x.operands → s.graph.Knows o
  forwards : ∀ {v o}, s.graph.forwards.get? v = some o → s.graph.Knows o
  defs : ∀ {q o}, s.reaching.defs.get? q = some o → s.graph.Knows o

theorem Graph.Knows.prior {g : Graph} {o : Operand} (h : g.Knows o) : g.Prior g.values.size o :=
  fun w hw => .inl (h w hw)

/-- What is there at the beginning is early. -/
theorem Tracked.SelfContained.early {s : Tracked} (h : s.SelfContained) :
    s.Early s.graph.values.size where
  graph := {
    phis := fun hx hphi ho => (h.phis hx hphi ho).prior
    instrs := fun hx _ hn _ => absurd (Graph.index_lt_of_value? hx) (Nat.not_lt_of_le hn)
    forwards := fun ho => (h.forwards ho).prior }
  defs := fun ho => (h.defs ho).prior

/-- **Every bench that can be built is self-contained**, for its phis, forwards and definitions have
    types. -/
theorem Bench.Reached.selfContained {s : Bench} (h : s.Reached) : s.tracked.SelfContained := by
  obtain ⟨vars, hs⟩ := h.intact
  refine ⟨fun hx hphi ho => ?_, fun ho => ?_, fun {q o} ho => ?_⟩
  · exact Graph.knows_of_typeOf? ((hs.tracked.graph.values hx).phi hphi _ ho)
  · obtain ⟨ty, -, hty⟩ := hs.tracked.graph.forwards ho
    exact Graph.knows_of_typeOf? hty
  · obtain ⟨b, x⟩ := q
    obtain ⟨d, -, hty⟩ := hs.tracked.defs ho
    exact Graph.knows_of_typeOf? hty

/-! ## 2. Operands come first -/

namespace Graph

variable {g g' : Graph} {v w : ValueId} {x : Value}

section WithInstr

variable (b : BlockId) (place : Nat) (ty : Ty) (origin : Origin) {i : Instr}

theorem isPhi_withInstr (h : g.IsPhi v) : (g.withInstr b place ty origin i).IsPhi v := by
  obtain ⟨x, hx, hphi⟩ := h
  refine ⟨x, ?_, hphi⟩
  rw [value?_withInstr, if_neg, hx]
  rintro rfl
  cases (value?_nextValue g).symm.trans hx

theorem Prior.withInstr {o : Operand} (h : g.Prior n o) :
    (g.withInstr b place ty origin i).Prior n o := fun w hw =>
  (h w hw).imp_right (isPhi_withInstr b place ty origin)

/-- **The operands of a new instruction are there**, so they are older than it. -/
theorem Early.withInstr (h : g.Early n) (hi : ∀ o ∈ i.operands, g.Knows o) :
    (g.withInstr b place ty origin i).Early n := by
  refine ⟨fun {v x o} hx hphi ho => ?_, fun {v x w} hx hphi hn hw => ?_, fun ho => ?_⟩
  · rw [value?_withInstr] at hx
    split at hx
    · cases hx
      cases hphi
    · exact (h.phis hx hphi ho).withInstr b place ty origin
  · rw [value?_withInstr] at hx
    split at hx
    · rename_i e
      cases hx
      subst e
      exact .inl (hi _ hw w rfl)
    · exact (h.instrs hx hphi hn hw).imp_right (isPhi_withInstr b place ty origin)
  · rw [forwards_withInstr] at ho
    exact (h.forwards ho).withInstr b place ty origin

end WithInstr

/-- Names and origins play no part. -/
theorem Discreet.of_alike (h : g.Alike g') : g.Discreet n g' := by
  refine of_operands (.of_alike h) (fun {v x o} hx ho => ?_) fun ho => .inr (h.forwards ▸ ho)
  obtain ⟨G, hG, hsame⟩ := h.value
  rw [hG] at hx
  obtain ⟨z, hz, rfl⟩ := Option.map_eq_some_iff.1 hx
  refine .inr ⟨z, hz, ?_⟩
  unfold Value.operands at *
  rwa [(hsame v z).2.2.2] at ho

/-- A new instruction is not early. -/
theorem not_prior (hw : w ∈ g.instrsSince n) : ¬ g.Prior n (.value w) := fun h => by
  obtain ⟨hn, hi⟩ := mem_instrsSince.1 hw
  obtain ⟨x, hx, hinstr⟩ := isInstr_iff.1 hi
  rcases h w rfl with hlt | ⟨x', hx', hphi⟩
  · exact absurd hlt (Nat.not_lt_of_le hn)
  · cases hx.symm.trans hx'
    cases hphi.symm.trans hinstr

/-- **A new value that uses a new instruction is one itself and stands behind it.** -/
theorem Early.behind (h : g.Early n) (hn : n ≤ v.index) (hx : g.value? v = some x)
    (hw : w ∈ g.instrsSince n) (hop : .value w ∈ x.operands) :
    ∃ l₁ l₂ l₃, g.instrsSince n = l₁ ++ w :: (l₂ ++ v :: l₃) := by
  cases hphi : x.isPhi with
  | true => exact absurd (h.phis hx hphi hop) (not_prior hw)
  | false =>
    have hv : v ∈ g.instrsSince n := mem_instrsSince.2 ⟨hn, isInstr_iff.2 ⟨x, hx, hphi⟩⟩
    have hlt : w.index < v.index :=
      (h.instrs hx hphi hn hop).resolve_right fun hw' => not_prior hw (.phi hw')
    exact exists_split_of_pairwise (g.pairwise_instrsSince n) hw hv hlt

end Graph

/-! ## 3. Expressions -/

/-- **What expressions are lowered to is there already** when it is used, and leaves graph and
    tables early. -/
theorem Build.provision_early (n : Nat) :
    Provision (fun _ t => t.tracked.Early n) (fun s => n ≤ s.graph.values.size ∧ s.tracked.Early n)
      Graph.Knows where
  stop := fun hs _ => hs.2
  lit := fun _ _ _ h => by cases h
  read := fun {s} hs x => by
    refine (Leaves.focus_iff _).2 (Leaves.mono (Track.early_read hs.2 x s.cursor.block)
      (fun _ _ ht => ht.early hs.2) fun o t ⟨ht, ho⟩ => ?_)
    have hsize := ht.quiet.graph.size
    refine ⟨⟨⟨Nat.le_trans hs.1 hsize, ht.early hs.2⟩, fun ha => ha.mono hsize⟩, fun w hw => ?_⟩
    rcases ho w hw with hlt | ⟨z, hz, -⟩
    · exact Nat.lt_of_lt_of_le hlt (Nat.le_trans hs.1 hsize)
    · exact Graph.index_lt_of_value? hz
  put := fun {s ty origin i v q} hs hi h => by
    obtain ⟨g, c⟩ := q
    obtain ⟨rfl, ⟨y, hy, -, hg⟩, -⟩ := h
    change g = s.graph.withInstr _ _ _ _ _ at hg
    subst hg
    have hsize : s.graph.values.size < (s.graph.withInstr s.cursor.block
        (s.cursor.position.getD y.instrs.length) ty origin i).values.size := by
      rw [Graph.size_withInstr]
      exact Nat.lt_succ_self _
    refine ⟨⟨⟨Nat.le_trans hs.1 (Nat.le_of_lt hsize), hs.2.graph.withInstr _ _ ty origin hi,
      fun ho => (hs.2.defs ho).withInstr _ _ ty origin⟩,
      fun ha => ha.mono (Nat.le_of_lt hsize)⟩, fun w hw => ?_⟩
    cases hw
    exact hsize
  mark := fun {s o} hs _ x => by
    refine (leaves_markPartial x o s).mono (fun _ _ e => e ▸ hs.2) fun _ _ ⟨g, ha, e⟩ => ?_
    subst e
    have hd : s.graph.Discreet n g := .of_alike ha
    exact ⟨⟨Nat.le_trans hs.1 hd.quiet.size, hd.early hs.2.graph, fun ho =>
      (hs.2.defs ho).mono hd.quiet⟩, fun hk => hk.mono hd.quiet.size⟩

/-- **Instructions are emitted in order**, for every expression, on every bench, whether the
    lowering comes to an answer or not. The instructions `new` that the lowering makes stand in the
    block of the cursor, at its place and in the order in which they were made, and the cursor goes
    behind them; the other blocks list what they listed. On every bench that can be built, and on
    every other one that is self-contained, whatever the lowering makes stands behind those of them
    that it uses. -/
theorem Bench.emits_in_order (s : Bench) (e : Expr) :
    let t := after (Build.lowerExpr e) s
    let new := t.graph.instrsSince s.graph.values.size
    (∀ b p, s.cursor = ⟨b, some p⟩ →
      t.graph.instrs b = (s.graph.instrs b).take p ++ new ++ (s.graph.instrs b).drop p ∧
        t.cursor = ⟨b, some (p + new.length)⟩) ∧
    (∀ b, s.cursor = ⟨b, none⟩ →
      t.graph.instrs b = s.graph.instrs b ++ new ∧ t.cursor = s.cursor) ∧
    (∀ b, b ≠ s.cursor.block → t.graph.instrs b = s.graph.instrs b) ∧
    (s.Reached ∨ s.tracked.SelfContained → ∀ v x, s.graph.values.size ≤ v.index →
      t.graph.value? v = some x → ∀ w ∈ new, .value w ∈ x.operands →
        ∃ l₁ l₂ l₃, new = l₁ ++ w :: (l₂ ++ v :: l₃)) := by
  intro t new
  have h : s.Inserted t := s.inserted_lowerExpr e
  have hhere := h.here
  have hcursor := h.cursor
  unfold Bench.place at hhere
  refine ⟨fun b p hc => ?_, fun b hc => ?_, fun b hb => h.elsewhere hb,
    fun hs v x hv hx w hw hop => ?_⟩
  · rw [hc] at hhere hcursor
    exact ⟨hhere, hcursor⟩
  · rw [hc] at hhere hcursor ⊢
    simp only [Option.getD_none, List.take_length, List.drop_length, List.append_nil] at hhere
    exact ⟨hhere, hcursor⟩
  · have hself : s.tracked.SelfContained := hs.elim Bench.Reached.selfContained id
    have hearly : t.tracked.Early s.graph.values.size :=
      (after_iff _ s fun t => t.tracked.Early _).2 (((Build.provision_early _).lowerExpr e
        ⟨Nat.le_refl _, hself.early⟩).mono (fun _ _ h => h) fun _ _ h => h.state.2)
    exact hearly.graph.behind hv hx hw hop

/-- A block in which the variable `x` has been read and negated, while the block is still open, and
    the cursor before that. -/
def Bench.negated : Bench :=
  { after (Build.lowerExpr (.unary .neg (.var ⟨0⟩)))
      { after (Operation.addBlock "loop" .live).run
          (.fresh "negated" [⟨⟨0⟩, "x", .unsigned 8, []⟩, ⟨⟨1⟩, "y", .unsigned 8, []⟩] true 64) with
        cursor := ⟨⟨1⟩, none⟩ } with
    cursor := ⟨⟨1⟩, some 0⟩ }

theorem Bench.reached_negated : Bench.negated.Reached :=
  .moved (.lowered (.moved (.ran (.fresh _ _ _ _) _ (by decide +kernel)) _ _) _ (by decide +kernel))
    _ _

/-- The product of the two variables, plus the second one. The first read of `y` makes a phi. -/
def productPlus : Expr := .binary .add (.binary .mul (.var ⟨0⟩) (.var ⟨1⟩)) (.var ⟨1⟩)

/-- Product and sum come before the negation, and the product before the sum that uses it. -/
theorem Bench.emits_in_order_negated :
    negated.Reached ∧ negated.graph.instrs ⟨1⟩ = [⟨1⟩] ∧
      (after (Build.lowerExpr productPlus) negated).graph.instrs ⟨1⟩ = [⟨3⟩, ⟨4⟩, ⟨1⟩] ∧
      (after (Build.lowerExpr productPlus) negated).cursor = ⟨⟨1⟩, some 2⟩ ∧
      ∃ l₁ l₂ l₃ : List ValueId, [⟨3⟩, ⟨4⟩] = l₁ ++ ⟨3⟩ :: (l₂ ++ ⟨4⟩ :: l₃) := by
  obtain ⟨hhere, -, -, horder⟩ := emits_in_order negated productPlus
  have hnew : (after (Build.lowerExpr productPlus) negated).graph.instrsSince
      negated.graph.values.size = [⟨3⟩, ⟨4⟩] := by decide +kernel
  have hold : negated.graph.instrs ⟨1⟩ = [⟨1⟩] := by decide +kernel
  have hsum : ((after (Build.lowerExpr productPlus) negated).graph.value? ⟨4⟩).map Value.operands =
      some [.value ⟨3⟩, .value ⟨2⟩] := by decide +kernel
  have hsize : negated.graph.values.size ≤ 4 := by decide +kernel
  obtain ⟨x, hx, hops⟩ := Option.map_eq_some_iff.1 hsum
  obtain ⟨hinstrs, hcursor⟩ := hhere ⟨1⟩ 0 rfl
  rw [hnew, hold] at hinstrs
  rw [hnew] at hcursor horder
  exact ⟨reached_negated, hold, hinstrs, hcursor,
    horder (.inl reached_negated) ⟨4⟩ x hsize hx ⟨3⟩ (by decide) (hops ▸ List.mem_cons_self)⟩

end BitFlow
