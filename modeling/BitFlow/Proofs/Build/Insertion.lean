import BitFlow.Proofs.Build.Provision
import BitFlow.Proofs.Reaching.Quiet

/-!
# Where new instructions go

What an expression is lowered to stands together in the block of the cursor, at the place of the
cursor and in the order in which it was made; behind it the cursor stays. Reads in between make
phis and remove phis, in this block and in others, but they touch no instruction.

Main statement: `Bench.inserted_lowerExpr` -- on every bench, whatever it holds and whether the
lowering comes to an answer or not.
-/

namespace BitFlow

/-! ## 1. The instructions among the values -/

namespace Graph

variable {g g' : Graph} {n : Nat} {v w : ValueId} {x : Value}

/-- Whether the value `v` is an instruction. -/
def isInstr (g : Graph) (v : ValueId) : Bool := ((g.value? v).map fun x => !x.isPhi).getD false

/-- The instructions among the values from the `n`-th on, in the order in which they were made. -/
def instrsSince (g : Graph) (n : Nat) : List ValueId :=
  ((List.range' n (g.values.size - n)).map ValueId.mk).filter g.isInstr

theorem isInstr_iff : g.isInstr v = true ↔ ∃ x, g.value? v = some x ∧ x.isPhi = false := by
  unfold isInstr
  cases g.value? v with
  | none => simp
  | some x => simp

theorem mem_instrsSince : v ∈ g.instrsSince n ↔ n ≤ v.index ∧ g.isInstr v = true := by
  unfold instrsSince
  rw [List.mem_filter, List.mem_map]
  refine and_congr_left fun h => ⟨?_, fun hn => ⟨v.index, List.mem_range'_1.2 ⟨hn, ?_⟩, rfl⟩⟩
  · rintro ⟨k, hk, rfl⟩
    exact (List.mem_range'_1.1 hk).1
  · obtain ⟨x, hx, -⟩ := isInstr_iff.1 h
    have := index_lt_of_value? hx
    omega

/-- They ascend. -/
theorem pairwise_instrsSince (g : Graph) (n : Nat) :
    (g.instrsSince n).Pairwise fun v w => v.index < w.index :=
  ((List.pairwise_lt_range' (s := n) (n := g.values.size - n)).map ValueId.mk fun _ _ h => h).filter
    g.isInstr

/-- What was there is of the kind that it was. -/
structure Extended (g g' : Graph) : Prop where
  size : g.values.size ≤ g'.values.size
  isInstr : ∀ {v}, v.index < g.values.size → g'.isInstr v = g.isInstr v

theorem Extended.instrsSince (h : g.Extended g') (hn : n ≤ g.values.size) :
    g'.instrsSince n = g.instrsSince n ++ g'.instrsSince g.values.size := by
  have hsize := h.size
  unfold Graph.instrsSince
  rw [show g'.values.size - n = (g.values.size - n) + (g'.values.size - g.values.size) by omega,
    ← List.range'_append_1, List.map_append, List.filter_append,
    show n + (g.values.size - n) = g.values.size by omega]
  refine congrArg (· ++ _) (List.filter_congr fun v hv => ?_)
  obtain ⟨k, hk, rfl⟩ := List.mem_map.1 hv
  have := List.mem_range'_1.1 hk
  exact h.isInstr (by show k < _; omega)

section WithInstr

variable (g : Graph) (b : BlockId) (place : Nat) (ty : Ty) (origin : Origin) (i : Instr)

theorem instrs_withInstr (c : BlockId) (hb : ∃ y, g.block? b = some y) :
    (g.withInstr b place ty origin i).instrs c =
      if b = c then (g.instrs c).take place ++ g.nextValue :: (g.instrs c).drop place
      else g.instrs c := by
  obtain ⟨y, hy⟩ := hb
  unfold instrs
  rw [block?_withInstr]
  by_cases e : b = c
  · subst e
    rw [hy]
    simp
  · cases g.block? c <;> simp [e]

theorem isInstr_withInstr (v : ValueId) :
    (g.withInstr b place ty origin i).isInstr v =
      if v = g.nextValue then true else g.isInstr v := by
  unfold isInstr
  rw [value?_withInstr]
  split <;> rfl

/-- An instruction is the one that is new. -/
theorem instrsSince_withInstr :
    (g.withInstr b place ty origin i).instrsSince g.values.size = [g.nextValue] := by
  unfold instrsSince
  rw [size_withInstr, Nat.add_sub_cancel_left]
  refine List.filter_eq_self.2 fun v hv => ?_
  have e : v = g.nextValue := List.mem_singleton.1 hv
  rw [isInstr_withInstr, if_pos e]

theorem extended_withInstr : g.Extended (g.withInstr b place ty origin i) where
  size := by
    rw [size_withInstr]
    exact Nat.le_succ _
  isInstr := fun {v} hv => by
    rw [isInstr_withInstr, if_neg]
    rintro rfl
    exact Nat.lt_irrefl _ hv

end WithInstr

/-- No instruction is new where none was touched. -/
theorem Quiet.instrsSince (h : g.Quiet g') : g'.instrsSince g.values.size = [] := by
  refine List.eq_nil_iff_forall_not_mem.2 fun v hv => ?_
  obtain ⟨hn, hi⟩ := mem_instrsSince.1 hv
  obtain ⟨x, hx, hphi⟩ := isInstr_iff.1 hi
  have hnone : g.value? v = none := by
    cases hs : g.value? v with
    | none => rfl
    | some z => exact absurd (index_lt_of_value? hs) (Nat.not_lt_of_le hn)
  exact Bool.noConfusion (hphi.symm.trans (h.new hnone hx))

theorem Quiet.extended (h : g.Quiet g') : g.Extended g' where
  size := h.size
  isInstr := fun {v} hv => by
    obtain ⟨x, hx⟩ := exists_value? hv
    obtain ⟨x', hx', -, hphi⟩ := h.value hx
    unfold Graph.isInstr
    rw [hx, hx', Option.map_some, Option.map_some, hphi]

end Graph

/-! ## 2. Insertion at the cursor -/

/-- The place among the instructions of its block at which the cursor stands. -/
def Bench.place (s : Bench) : Nat := s.cursor.position.getD (s.graph.instrs s.cursor.block).length

/-- The instructions of `t` that were not there in `s`. -/
def Bench.newInstrs (s t : Bench) : List ValueId := t.graph.instrsSince s.graph.values.size

/-- **What is new in `t` was put in where the cursor of `s` stands**, and nothing else was; the
    cursor of `t` stands behind it. -/
structure Bench.Inserted (s t : Bench) : Prop where
  extended : s.graph.Extended t.graph
  here : t.graph.instrs s.cursor.block =
    (s.graph.instrs s.cursor.block).take s.place ++ s.newInstrs t ++
      (s.graph.instrs s.cursor.block).drop s.place
  elsewhere : ∀ {b}, b ≠ s.cursor.block → t.graph.instrs b = s.graph.instrs b
  cursor : t.cursor =
    { s.cursor with position := s.cursor.position.map (· + (s.newInstrs t).length) }

/-- A list with new members at the place `p` is taken apart behind the new ones. -/
theorem take_drop_inserted {α : Type} (l new : List α) (p : Nat) :
    (l.take p ++ new ++ l.drop p).take (p + new.length) = l.take p ++ new ∧
      (l.take p ++ new ++ l.drop p).drop (p + new.length) = l.drop p := by
  by_cases h : p ≤ l.length
  · have hlen : p + new.length = (l.take p ++ new).length := by
      rw [List.length_append, List.length_take, Nat.min_eq_left h]
    rw [hlen]
    exact ⟨List.take_left, List.drop_left⟩
  · -- beyond its end nothing stands behind the new members
    have hle : l.length ≤ p := by omega
    rw [List.drop_of_length_le hle, List.append_nil]
    have hlen : (l.take p ++ new).length ≤ p + new.length := by
      rw [List.length_append, List.length_take]
      omega
    exact ⟨List.take_of_length_le hlen, List.drop_of_length_le hlen⟩

namespace Bench.Inserted

variable {s t u : Bench}

theorem place (h : s.Inserted t) : t.place = s.place + (s.newInstrs t).length := by
  unfold Bench.place
  rw [h.cursor]
  cases hp : s.cursor.position with
  | some p => rfl
  | none =>
    have hall : s.place = (s.graph.instrs s.cursor.block).length := by
      unfold Bench.place
      rw [hp]
      rfl
    show (t.graph.instrs s.cursor.block).length = _
    rw [h.here, hall]
    simp

theorem refl (s : Bench) : s.Inserted s := by
  have hnew : s.newInstrs s = [] := by
    unfold Bench.newInstrs Graph.instrsSince
    rw [Nat.sub_self]
    rfl
  refine ⟨⟨Nat.le_refl _, fun _ => rfl⟩, ?_, fun _ => rfl, ?_⟩
  · rw [hnew, List.append_nil, List.take_append_drop]
  · rw [hnew]
    cases s.cursor with
    | mk b position => cases position <;> rfl

/-- **Insertions follow one another**, for the cursor stands behind what came in before. -/
theorem trans (h : s.Inserted t) (h' : t.Inserted u) : s.Inserted u := by
  have hblock : t.cursor.block = s.cursor.block := by rw [h.cursor]
  have hnew : s.newInstrs u = s.newInstrs t ++ t.newInstrs u := by
    unfold Bench.newInstrs
    exact h'.extended.instrsSince h.extended.size
  obtain ⟨htake, hdrop⟩ :=
    take_drop_inserted (s.graph.instrs s.cursor.block) (s.newInstrs t) s.place
  have hsize := Nat.le_trans h.extended.size h'.extended.size
  refine ⟨⟨hsize, fun {v} hv => ?_⟩, ?_, fun {b} hb => ?_, ?_⟩
  · rw [h'.extended.isInstr (Nat.lt_of_lt_of_le hv h.extended.size), h.extended.isInstr hv]
  · rw [← hblock, h'.here, hblock, h.place, h.here, htake, hdrop, hnew, List.append_assoc,
      List.append_assoc, List.append_assoc, List.append_assoc]
  · rw [h'.elsewhere (hblock ▸ hb), h.elsewhere hb]
  · rw [h'.cursor, h.cursor, hnew, List.length_append]
    cases s.cursor.position with
    | none => rfl
    | some p => simp [Nat.add_assoc]

/-- Where no instruction was touched, none came in. -/
theorem of_quiet (hq : s.graph.Quiet t.graph) (hcursor : t.cursor = s.cursor) : s.Inserted t := by
  have hinstrs : ∀ b, t.graph.instrs b = s.graph.instrs b := fun b =>
    congrArg (·.getD []) (hq.instrs b)
  have hnew : s.newInstrs t = [] := hq.instrsSince
  refine ⟨hq.extended, ?_, fun _ => hinstrs _, ?_⟩
  · rw [hnew, List.append_nil, List.take_append_drop, hinstrs]
  · rw [hnew, hcursor]
    cases s.cursor with
    | mk b position => cases position <;> rfl

/-- **An instruction is put in at the cursor.** -/
theorem of_put {ty : Ty} {origin : Origin} {i : Instr} {v : ValueId} {q : Pointed}
    (h : Put ⟨s.graph, s.cursor⟩ ty origin i v q) : s.Inserted (s.repoint q) := by
  obtain ⟨g, c⟩ := q
  obtain ⟨-, ⟨y, hy, -, hg⟩, hc⟩ := h
  change s.graph.block? s.cursor.block = some y at hy
  have hplace : s.cursor.position.getD y.instrs.length = s.place := by
    unfold Bench.place Graph.instrs
    rw [hy]
    rfl
  change g = s.graph.withInstr s.cursor.block (s.cursor.position.getD y.instrs.length) ty origin i
    at hg
  change c = s.cursor.advance at hc
  rw [hplace] at hg
  subst hg hc
  have hnew : s.newInstrs (s.repoint ⟨s.graph.withInstr s.cursor.block s.place ty origin i,
      s.cursor.advance⟩) = [s.graph.nextValue] := Graph.instrsSince_withInstr ..
  refine ⟨Graph.extended_withInstr .., ?_, fun {b} hb => ?_, ?_⟩
  · rw [hnew]
    refine (Graph.instrs_withInstr _ _ _ _ _ _ _ ⟨y, hy⟩).trans ?_
    rw [if_pos rfl, List.append_assoc]
    rfl
  · exact (Graph.instrs_withInstr _ _ _ _ _ _ _ ⟨y, hy⟩).trans (if_neg hb.symm)
  · rw [hnew]
    rfl

end Bench.Inserted

/-! ## 3. Expressions -/

/-- Reads and marks touch no instruction, and every other step puts one in. -/
theorem Build.provision_inserted (s₀ : Bench) :
    Provision (fun _ t => s₀.Inserted t) s₀.Inserted fun _ _ => True where
  stop := fun hs _ => hs
  lit := fun _ _ => trivial
  read := fun {s} hs x => by
    have hstep : ∀ {t : Tracked}, s.tracked.Quiet t → s₀.Inserted (s.retrack t) := fun hq =>
      hs.trans (.of_quiet hq.graph rfl)
    exact (Leaves.focus_iff _).2 (Leaves.mono (Track.quiet_read x s.cursor.block s.tracked)
      (fun _ _ hq => hstep hq) fun _ _ hq => ⟨⟨hstep hq.1, id⟩, trivial⟩)
  put := fun hs _ h => ⟨⟨hs.trans (.of_put h), id⟩, trivial⟩
  mark := fun hs _ x => (leaves_markPartial x _ _).mono (fun _ _ e => e ▸ hs) fun _ _ ⟨_, ha, e⟩ =>
    ⟨hs.trans (.of_quiet (by rw [e]; exact .of_alike ha) (by rw [e])), id⟩

/-- **What an expression is lowered to goes in at the cursor**, on every bench, and whether the
    lowering comes to an answer or not. -/
theorem Bench.inserted_lowerExpr (s : Bench) (e : Expr) :
    s.Inserted (after (Build.lowerExpr e) s) :=
  (after_iff _ s _).2 (((Build.provision_inserted s).lowerExpr e (.refl s)).mono (fun _ _ h => h)
    fun _ _ h => h.state)

end BitFlow
