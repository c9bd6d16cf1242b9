import BitFlow.Reaching.Read

/-!
# The table of definitions and its inverse

Main statements: `Reaching.Mirrored.record` and `Reaching.Mirrored.reroute` -- the table of
definitions and its inverse stay in step; `Reaching.get?_reroute` -- rerouting a value changes
exactly the places that record it. For the waiting phis, `Multimap.Tight` -- no key is kept for an
empty set.
-/

namespace BitFlow

/-! ## 1. Keys of a finite relation -/

theorem Ranked.nodup_insert {α : Type} [Ranked α] [DecidableEq α] {a : α} {as : List α}
    (h : as.Nodup) (ha : a ∉ as) : (Ranked.insert a as).Nodup := by
  induction as with
  | nil => exact List.nodup_cons.2 ⟨ha, h⟩
  | cons b bs ih =>
    rw [List.mem_cons, not_or] at ha
    unfold Ranked.insert
    rw [if_neg ha.1]
    split
    · exact List.nodup_cons.2 ⟨by simp [ha.1, ha.2], h⟩
    · rw [List.nodup_cons] at h ⊢
      refine ⟨fun hm => ?_, ih h.2 ha.2⟩
      rcases (Ranked.mem_insert a b bs).1 hm with e | hm
      · exact ha.1 e.symm
      · exact h.1 hm

namespace Multimap

variable {κ α : Type} [DecidableEq κ]

/-- Every key is related to something. -/
def Tight (m : Multimap κ α) : Prop := ∀ p ∈ m.table.pairs, p.2 ≠ []

omit [DecidableEq κ] in
theorem Tight.empty : (empty : Multimap κ α).Tight := fun _ h => by cases h

theorem Tight.setImage {m : Multimap κ α} (h : m.Tight) (k : κ) (as : List α) :
    (m.setImage k as).Tight := by
  intro p hp
  cases as with
  | nil => exact h p (List.mem_filter.1 hp |>.1)
  | cons a as =>
    rcases List.mem_cons.1 hp with rfl | hp
    · exact List.cons_ne_nil a as
    · exact h p (List.mem_filter.1 hp |>.1)

/-- A relation without pairs has no keys. -/
theorem Tight.keys_eq_nil {m : Multimap κ α} (h : m.Tight) (hm : ∀ k, m.image k = []) :
    m.keys = [] := by
  cases hp : m.table.pairs with
  | nil =>
    show m.table.pairs.map Prod.fst = []
    rw [hp]
    rfl
  | cons p ps =>
    obtain ⟨k, as⟩ := p
    have hk : m.image k = as := by
      show (m.table.pairs.lookup k).getD [] = as
      rw [hp, List.lookup_cons, beq_self_eq_true]
      rfl
    have hne : as ≠ [] := h (k, as) (by rw [hp]; exact List.mem_cons_self)
    exact absurd (hk.symm.trans (hm k)) hne

end Multimap

namespace Reaching

/-! ## 2. Recording -/

/-- The inverse lists exactly the places that record a value, for every value but those in `off`,
    which it does not list. -/
def MirroredOff (off : ValueId → Prop) (r : Reaching) : Prop :=
  ∀ w q, q ∈ r.holders.image w ↔ ¬ off w ∧ r.defs.get? q = some (.value w)

/-- The inverse lists exactly the places that record a value. -/
def Mirrored (r : Reaching) : Prop := r.MirroredOff fun _ => False

theorem Mirrored.fresh (vars : List Variable) (nameValues : Bool) :
    (Reaching.fresh vars nameValues).Mirrored := by
  intro w q
  constructor
  · intro h
    cases h
  · rintro ⟨-, h⟩
    cases h

@[simp] theorem get?_record (r : Reaching) (x : VarId) (b : BlockId) (o : Operand)
    (q : BlockId × VarId) :
    (r.record x b o).defs.get? q = if (b, x) = q then some o else r.defs.get? q :=
  Table.get?_insert r.defs (b, x) q o

theorem MirroredOff.record {off : ValueId → Prop} {r : Reaching} (h : r.MirroredOff off)
    (x : VarId) (b : BlockId) {o : Operand} (ho : ∀ w, o = .value w → ¬ off w) :
    (r.record x b o).MirroredOff off := by
  intro w q
  rw [mem_holders_record, h, get?_record, show r.definition? x b = r.defs.get? (b, x) from rfl]
  by_cases e : (b, x) = q
  · subst e
    rw [if_pos rfl]
    constructor
    · rintro (⟨hw, -⟩ | ⟨⟨-, hd⟩, hn⟩)
      · exact ⟨ho w hw, congrArg some hw⟩
      · exact absurd ⟨hd, rfl⟩ hn
    · rintro ⟨-, hw⟩
      exact .inl ⟨Option.some.inj hw, rfl⟩
  · rw [if_neg e]
    constructor
    · rintro (⟨-, hq⟩ | ⟨hd, -⟩)
      · exact absurd hq.symm e
      · exact hd
    · intro hd
      exact .inr ⟨hd, fun hc => e hc.2.symm⟩

/-- Recording a definition keeps table and inverse in step. -/
theorem Mirrored.record {r : Reaching} (h : r.Mirrored) (x : VarId) (b : BlockId) (o : Operand) :
    (r.record x b o).Mirrored := MirroredOff.record h x b fun _ _ hc => hc

/-! ## 3. Rerouting -/

/-- Recording `o` at each of some places. -/
theorem get?_foldl_record (ps : List (BlockId × VarId)) (o : Operand) (r : Reaching)
    (q : BlockId × VarId) :
    (ps.foldl (fun r p => r.record p.2 p.1 o) r).defs.get? q =
      if q ∈ ps then some o else r.defs.get? q := by
  induction ps generalizing r with
  | nil => simp
  | cons p ps ih =>
    rw [List.foldl_cons, ih, get?_record]
    by_cases h1 : q ∈ ps
    · simp [h1]
    · by_cases h2 : p = q
      · simp [h2]
      · simp [h1, h2, Ne.symm h2]

theorem MirroredOff.foldl_record {off : ValueId → Prop} (ps : List (BlockId × VarId)) {o : Operand}
    (ho : ∀ w, o = .value w → ¬ off w) {r : Reaching} (h : r.MirroredOff off) :
    (ps.foldl (fun r p => r.record p.2 p.1 o) r).MirroredOff off := by
  induction ps generalizing r with
  | nil => exact h
  | cons p ps ih => exact ih (h.record p.2 p.1 ho)

/-- Recording touches the table of definitions and its inverse only. -/
theorem foldl_record_eq (ps : List (BlockId × VarId)) (o : Operand) (r : Reaching) :
    ∃ defs holders, ps.foldl (fun r p => r.record p.2 p.1 o) r =
      { r with defs := defs, holders := holders } := by
  induction ps generalizing r with
  | nil => exact ⟨r.defs, r.holders, rfl⟩
  | cons p ps ih =>
    obtain ⟨defs, holders, h⟩ := ih (r.record p.2 p.1 o)
    exact ⟨defs, holders, by rw [List.foldl_cons, h]; rfl⟩

theorem reroute_eq (r : Reaching) (v : ValueId) (o : Operand) :
    ∃ defs holders, r.reroute v o = { r with defs := defs, holders := holders } := by
  obtain ⟨defs, holders, h⟩ :=
    foldl_record_eq (r.holders.image v) o { r with holders := r.holders.drop v }
  exact ⟨defs, holders, h⟩

/-- **Rerouting `v` to `o` changes exactly the places that record `v`.** -/
theorem get?_reroute {r : Reaching} (h : r.Mirrored) (v : ValueId) (o : Operand)
    (q : BlockId × VarId) :
    (r.reroute v o).defs.get? q = (r.defs.get? q).map (Operand.replace (.value v) o) := by
  unfold reroute
  rw [get?_foldl_record]
  by_cases hq : q ∈ r.holders.image v
  · rw [if_pos hq, ((h v q).1 hq).2, Option.map_some]
    unfold Operand.replace
    rw [if_pos rfl]
  · rw [if_neg hq]
    show r.defs.get? q = _
    cases hd : r.defs.get? q with
    | none => rfl
    | some a =>
      have hne : a ≠ .value v := by
        rintro rfl
        exact hq ((h v q).2 ⟨id, hd⟩)
      rw [Option.map_some, Operand.replace, if_neg hne]

/-- Rerouting keeps table and inverse in step. -/
theorem Mirrored.reroute {r : Reaching} (h : r.Mirrored) {v : ValueId} {o : Operand}
    (ho : o ≠ .value v) : (r.reroute v o).Mirrored := by
  -- while the places of `v` are gone through, the inverse is right for every value but `v`
  have h0 : ({ r with holders := r.holders.drop v } : Reaching).MirroredOff fun w => w = v := by
    intro w q
    show q ∈ (r.holders.drop v).image w ↔ _
    rw [Multimap.mem_image_drop, h]
    constructor
    · rintro ⟨⟨-, hd⟩, hn⟩
      exact ⟨fun e => hn e.symm, hd⟩
    · rintro ⟨hn, hd⟩
      exact ⟨⟨id, hd⟩, fun e => hn e.symm⟩
  have h1 : (r.reroute v o).MirroredOff fun w => w = v :=
    h0.foldl_record _ fun w hw e => ho (hw.trans (congrArg Operand.value e))
  intro w q
  rw [h1]
  constructor
  · rintro ⟨-, hd⟩
    exact ⟨id, hd⟩
  · rintro ⟨-, hd⟩
    refine ⟨?_, hd⟩
    rintro rfl
    rw [get?_reroute h] at hd
    obtain ⟨a, -, ha⟩ := Option.map_eq_some_iff.1 hd
    unfold Operand.replace at ha
    split at ha
    · exact ho ha
    · rename_i hne
      exact hne ha

end Reaching

end BitFlow
