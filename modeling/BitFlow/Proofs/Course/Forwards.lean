import BitFlow.Proofs.Course.Program
import BitFlow.Proofs.Typing.Program

/-!
# Forwards are acyclic and complete

Whenever the lowering of a program is between two operations, the values that have been removed are
phis, each with a forward, and no other value has one. Following forwards from any value comes to an
end, and a removed value stands for a literal, for the undefined operand or for a value that is
there, of its own type.

Most of this is part of what every move keeps (`Moves.idle`, `Moves.typed`). What is left is that
nothing but a phi is ever removed (`Moves.shedsPhis`).

Main statement: `Program.forwarded_of_meets`.
-/

namespace BitFlow

/-! ## 1. Only phis are removed -/

/-- Whoever is removed is a phi. -/
def Graph.ShedsPhis (g : Graph) : Prop :=
  ∀ v x, g.value? v = some x → x.isAttached = false → x.isPhi = true

namespace Graph.ShedsPhis

variable {g g' : Graph}

/-- It is enough to look at the values that are not there yet, or not removed yet. -/
theorem mono (h : g.ShedsPhis)
    (hv : ∀ {v x'}, g'.value? v = some x' → x'.isAttached = false → x'.isPhi = true ∨
      ∃ x, g.value? v = some x ∧ x.isAttached = false ∧ x'.isPhi = x.isPhi) : g'.ShedsPhis := by
  intro v x' hx' ha'
  rcases hv hx' ha' with hphi | ⟨x, hx, ha, hsame⟩
  · exact hphi
  · exact hsame.trans (h v x hx ha)

theorem congr (h : g.ShedsPhis) (hv : ∀ v, g'.value? v = g.value? v) : g'.ShedsPhis :=
  fun v x hx ha => h v x (hv v ▸ hx) ha

theorem withPhi (h : g.ShedsPhis) (b : BlockId) (x : VarId) (ty : Ty) :
    (g.withPhi b x ty).ShedsPhis := by
  refine h.mono fun {v x'} hx' ha' => ?_
  rw [value?_withPhi] at hx'
  split at hx'
  · cases hx'
    exact .inl rfl
  · exact .inr ⟨x', hx', ha', rfl⟩

theorem withInstr (h : g.ShedsPhis) (b : BlockId) (place : Nat) (ty : Ty) (origin : Origin)
    (i : Instr) : (g.withInstr b place ty origin i).ShedsPhis := by
  refine h.mono fun {v x'} hx' ha' => ?_
  rw [value?_withInstr] at hx'
  split at hx'
  · cases hx'
    cases ha'
  · exact .inr ⟨x', hx', ha', rfl⟩

theorem withIncoming (h : g.ShedsPhis) (v : ValueId) (phi : Phi) (o : Operand) (q : BlockId) :
    (g.withIncoming v phi o q).ShedsPhis := by
  refine h.mono fun {w x'} hx' ha' => ?_
  rw [value?_withIncoming] at hx'
  obtain ⟨x, hx, rfl⟩ := Option.map_eq_some_iff.1 hx'
  split
  · exact .inl rfl
  · rename_i e
    rw [if_neg e] at ha'
    exact .inr ⟨x, hx, ha', rfl⟩

/-- A phi is retired. -/
theorem retired (h : g.ShedsPhis) {v : ValueId} {q : OwnedPhi} {o : Operand}
    (hq : g.phi? v = some q) (hg : Retired v o g g') : g'.ShedsPhis := by
  refine h.mono fun {w x'} hx' ha' => ?_
  rw [hg.value] at hx'
  obtain ⟨x, hx, rfl⟩ := Option.map_eq_some_iff.1 hx'
  by_cases e : w = v
  · subst e
    obtain ⟨y, hy, -, -, hkind⟩ := phi?_eq_some.1 hq
    cases hx.symm.trans hy
    rw [if_pos rfl]
    refine .inl ?_
    show (x.replace (.value w) o).isPhi = true
    rw [Value.isPhi_replace]
    unfold Value.isPhi
    rw [hkind]
  · rw [if_neg e] at ha' ⊢
    by_cases ha : x.isAttached = true
    · rw [if_pos ha] at ha'
      exact absurd (ha.symm.trans ha') Bool.noConfusion
    · rw [if_neg ha]
      exact .inr ⟨x, hx, Bool.not_eq_true _ ▸ ha, rfl⟩

theorem alike (h : g.ShedsPhis) (ha : g.Alike g') : g'.ShedsPhis := by
  obtain ⟨G, hG, hkeep⟩ := ha.value
  refine h.mono fun {v x'} hx' ha' => .inr ?_
  rw [hG] at hx'
  obtain ⟨x, hx, rfl⟩ := Option.map_eq_some_iff.1 hx'
  obtain ⟨-, -, hblock, hkind⟩ := hkeep v x
  refine ⟨x, hx, ?_, ?_⟩
  · unfold Value.isAttached at ha' ⊢
    rwa [← hblock]
  · unfold Value.isPhi
    rw [hkind]

end Graph.ShedsPhis

theorem Step.shedsPhis {floor : Nat} {scope : VarId → Prop} {closing : Option BlockId}
    {s t : Tracked} {new : Option NewPhi} (hstep : Step floor scope closing s new t)
    (h : s.graph.ShedsPhis) : t.graph.ShedsPhis := by
  cases hstep with
  | opened => exact h.withPhi _ _ _
  | awaited => exact h.withPhi _ _ _
  | pushed => exact h.withIncoming _ _ _ _
  | retired _ hp _ _ _ hg => exact h.retired hp hg
  | alike ha => exact h.alike ha.graph
  | started | filled | recorded => exact h

theorem Steps.shedsPhis {floor : Nat} {scope : VarId → Prop} {closing : Option BlockId}
    {s t : Tracked} {made : List NewPhi} (hsteps : Steps floor scope closing s made t)
    (h : s.graph.ShedsPhis) : t.graph.ShedsPhis := by
  induction hsteps with
  | refl => exact h
  | cons hstep _ ih => exact ih (hstep.shedsPhis h)

/-- **Every move removes nothing but phis.** -/
theorem Move.shedsPhis {p : Program} {s t : Tracked} (hm : Move p s t) (hs : Idle s)
    (h : s.graph.ShedsPhis) : t.graph.ShedsPhis := by
  cases hm with
  | read run =>
    obtain ⟨made, hst⟩ := (Track.didRead_of_run hs.sane run).steps
    exact hst.shedsPhis h
  | sealed run =>
    obtain ⟨y, made, u, -, hst, -, rfl, -⟩ := Track.sealed_of_run hs.sane run
    exact (hst.shedsPhis h).congr fun v => rfl
  | edge => exact h.congr fun v => s.graph.value?_link _ _ _ v
  | instr _ _ _ place origin => exact h.withInstr _ place _ origin _
  | alike ha => exact h.alike ha.graph
  | block | write | kill => exact h

theorem Moves.shedsPhis {p : Program} {s t : Tracked} (hm : Moves p s t) (hs : Idle s)
    (h : s.graph.ShedsPhis) : t.graph.ShedsPhis := by
  induction hm with
  | refl => exact h
  | tail hchain hmove ih => exact hmove.shedsPhis (Moves.idle hchain hs) ih

/-! ## 2. What removed values stand for -/

/-- **Forwards are acyclic and complete.** -/
structure Graph.Forwarded (g : Graph) : Prop where
  /-- A removed value is a phi, and it has a forward. -/
  removed : ∀ {v x}, g.value? v = some x → x.isAttached = false →
    x.isPhi = true ∧ ∃ o, g.forwards.get? v = some o
  /-- A value that is there has none. -/
  attached : ∀ {v x}, g.value? v = some x → x.isAttached = true → g.forwards.get? v = none
  /-- Following forwards from any value comes to an operand that has none. -/
  ends : ∀ v, ∃ n o, g.follow n (.value v) = some o ∧ g.Final o
  /-- A removed value stands for a literal, for the undefined operand or for a value that is there,
      of its own type. -/
  resolves : ∀ {v x}, g.value? v = some x → x.isAttached = false →
    (∃ n, g.follow n (.value v) = some (g.resolve (.value v))) ∧
      g.Anchors (g.resolve (.value v)) ∧ g.typeOf? (g.resolve (.value v)) = some x.ty

theorem Graph.Forwarded.of_moves {p : Program} {s t : Tracked} (hm : Moves p s t) (hs : Idle s)
    (ht : Typed p s) (hsheds : s.graph.ShedsPhis) : t.graph.Forwarded := by
  have hidle : Idle t := hm.idle hs
  have hforw : t.graph.Forwarding := hidle.sane.steady.forwarding
  have hfollow : ∀ o, ∃ n, t.graph.follow n o = some (t.graph.resolve o) := fun o =>
    (Graph.follow_eq_resolve hforw.ordered o).imp fun n hn => hn n (Nat.le_refl n)
  refine ⟨fun {v x} hx ha => ⟨hm.shedsPhis hs hsheds v x hx ha, ?_⟩, fun {v x} hx ha => ?_,
    fun v => ?_, fun {v x} hx ha => ⟨hfollow _, ?_, ?_⟩⟩
  · have hmem : v ∈ t.graph.forwards.pairs.map Prod.fst := by
      refine (hforw.removed v).2 ⟨Graph.index_lt_of_value? hx, ?_⟩
      rintro ⟨y, hy, hatt⟩
      cases hx.symm.trans hy
      exact absurd (ha.symm.trans hatt) Bool.noConfusion
    exact Option.ne_none_iff_exists'.1 fun hnone => Table.get?_eq_none_iff.1 hnone hmem
  · exact Table.get?_eq_none_iff.2 (hforw.not_mem_of_attached ⟨x, hx, ha⟩)
  · obtain ⟨n, hn⟩ := hfollow (.value v)
    exact ⟨n, _, hn, Graph.final_resolve hforw.ordered _⟩
  · refine hidle.sane.steady.anchors_resolve fun w hw => ?_
    cases hw
    exact Graph.index_lt_of_value? hx
  · rw [(hm.typed hs ht).typeOf?_resolve]
    exact congrArg (Option.map Value.ty) hx

/-! ## 3. Programs -/

/-- **Forwards are acyclic and complete between any two operations** of a lowering. -/
theorem Program.forwarded_of_meets {p : Program} {s : Settings} {t : Tracked}
    (ht : p.Meets s t) : t.graph.Forwarded :=
  .of_moves ht.moves (.start p s) (.start p s) fun _ _ hx => by cases hx

/-- A program that reads a datum and writes it again and again if it is small. -/
def Program.echoing : Program where
  name := "echoing"
  vars := [⟨⟨0⟩, "x", .unsigned 8, []⟩]
  ports := [⟨⟨0⟩, "in", .unsigned 8, .input⟩, ⟨⟨1⟩, "out", .unsigned 8, .output⟩]
  body := [.read ⟨0⟩ ⟨0⟩,
    .whileLoop (.compare .lt (.var ⟨0⟩) (.lit (.ofNat 100 (.unsigned 8))))
      [.write ⟨1⟩ (.var ⟨0⟩)]]

/-- The loop of `echoing` does not change the datum: the phi that was made for it is removed, and it
    stands for the datum. -/
theorem Program.forwarded_echoing : ∃ t, echoing.Meets Preset.fast.settings t ∧ ∃ v x,
    t.graph.value? v = some x ∧ x.isAttached = false ∧ x.isPhi = true ∧
      t.graph.typeOf? (t.graph.resolve (.value v)) = some x.ty := by
  have hrun : (echoing.lower Preset.fast.settings).toOption.any
      (fun r => (r.graph.value? ⟨1⟩).any fun x => !x.isAttached) = true := by decide +kernel
  cases hr : echoing.lower Preset.fast.settings with
  | error e =>
    rw [hr] at hrun
    cases hrun
  | ok r =>
    rw [hr] at hrun
    have hany : (r.graph.value? ⟨1⟩).any (fun x => !x.isAttached) = true := hrun
    rw [Option.any_eq_true] at hany
    obtain ⟨x, hx, ha⟩ := hany
    rw [Bool.not_eq_true'] at ha
    obtain ⟨t, ht, hgraph⟩ := meets_of_lower hr
    have hforwarded := forwarded_of_meets ht
    rw [← hgraph] at hx
    exact ⟨t, ht, ⟨1⟩, x, hx, ha, (hforwarded.removed hx ha).1, (hforwarded.resolves hx ha).2.2⟩

end BitFlow
