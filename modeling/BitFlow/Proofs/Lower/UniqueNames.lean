import BitFlow.Proofs.Lower.Enduring
import Mathlib.Data.List.Nodup

/-!
# No name is given twice

A value is named after a variable and a number; the numbers of a variable count up, and no number
is written with an underscore. So a name tells the variable's name, whatever characters are in it,
and the number. A name that has been given is not given again, and it stays with its value, also
when that is removed.

Main statements: `Variable.versionName_inj` -- what a name tells; `Tracked.Named.christened` -- a
new name is new; `Program.names_unique`.
-/

namespace BitFlow

/-! ## 1. The form of names -/

/-- A list tells what stands before its last separator and what stands behind it. -/
theorem append_cons_inj_right {α : Type} {a : α} {as bs cs ds : List α} (hb : a ∉ bs) (hd : a ∉ ds)
    (h : as ++ a :: bs = cs ++ a :: ds) : as = cs ∧ bs = ds := by
  rcases List.append_eq_append_iff.1 h with ⟨es, rfl, hes⟩ | ⟨es, rfl, hes⟩
  · cases es with
    | nil => exact ⟨(List.append_nil as).symm, List.tail_eq_of_cons_eq hes⟩
    | cons e es =>
      have hbs : bs = es ++ a :: ds := List.tail_eq_of_cons_eq hes
      exact absurd (hbs ▸ List.mem_append_right es List.mem_cons_self) hb
  · cases es with
    | nil => exact ⟨List.append_nil cs, (List.tail_eq_of_cons_eq hes).symm⟩
    | cons e es =>
      have hds : ds = es ++ a :: bs := List.tail_eq_of_cons_eq hes
      exact absurd (hds ▸ List.mem_append_right es List.mem_cons_self) hd

namespace Variable

/-- The name with the number `i` after a variable. -/
def versionName (d : Variable) (i : Nat) : String := d.name ++ "_" ++ toString i

theorem toList_versionName (d : Variable) (i : Nat) :
    (d.versionName i).toList = d.name.toList ++ '_' :: Nat.toDigits 10 i := by
  unfold versionName
  rw [String.toList_append, String.toList_append, List.append_assoc]
  exact congrArg (fun ds => d.name.toList ++ '_' :: ds) Nat.toList_repr

/-- **A name tells the name of the variable and the number.** -/
theorem versionName_inj {d e : Variable} {i j : Nat} (h : d.versionName i = e.versionName j) :
    d.name = e.name ∧ i = j := by
  have hlist := congrArg String.toList h
  rw [toList_versionName, toList_versionName] at hlist
  obtain ⟨hname, hdigits⟩ := append_cons_inj_right Nat.underscore_not_in_toDigits
    Nat.underscore_not_in_toDigits hlist
  refine ⟨String.toList_injective hname, ?_⟩
  have hread : ∀ n, Nat.ofDigitChars 10 (Nat.toDigits 10 n) 0 = n := fun _ =>
    Nat.ofDigitChars_toDigits (by decide) (Nat.le_refl 10)
  rw [← hread i, hdigits, hread j]

end Variable

/-! ## 2. Names that were given -/

/-- No two values have the same name, whether blocks list them or not. -/
def Graph.NamesUnique (g : Graph) : Prop :=
  ∀ ⦃v w : ValueId⦄ ⦃x y : Value⦄ ⦃n : String⦄, g.value? v = some x → g.value? w = some y →
    x.name = some n → y.name = some n → v = w

namespace Tracked

variable {s : Tracked}

/-- The number of the next name after a variable. -/
def version (s : Tracked) (x : VarId) : Nat := (s.reaching.versions.get? x).getD 0

/-- The name was given after a declared variable: its number is below the next one. -/
def Issued (s : Tracked) (n : String) : Prop :=
  ∃ x d i, variableById? s.reaching.vars x = some d ∧ i < s.version x ∧ n = d.versionName i

/-- Another graph, and one name more after `x`. -/
def renumbered (s : Tracked) (x : VarId) (g : Graph) : Tracked :=
  ⟨g, { s.reaching with versions := s.reaching.versions.insert x (s.version x + 1) }⟩

theorem version_renumbered (s : Tracked) (x y : VarId) (g : Graph) :
    (s.renumbered x g).version y = if x = y then s.version x + 1 else s.version y := by
  show ((s.reaching.versions.insert x (s.version x + 1)).get? y).getD 0 = _
  rw [Table.get?_insert]
  split <;> rfl

/-- A name that was given stays given, -/
theorem Issued.renumbered {n : String} (h : s.Issued n) (x : VarId) (g : Graph) :
    (s.renumbered x g).Issued n := by
  obtain ⟨y, d, i, hd, hi, hn⟩ := h
  refine ⟨y, d, i, hd, ?_, hn⟩
  rw [version_renumbered]
  split
  · rename_i e
    subst e
    exact Nat.lt_succ_of_lt hi
  · exact hi

/-- and the next one is. -/
theorem issued_renumbered {x : VarId} {d : Variable}
    (hd : variableById? s.reaching.vars x = some d) (g : Graph) :
    (s.renumbered x g).Issued (d.versionName (s.version x)) := by
  refine ⟨x, d, s.version x, hd, ?_, rfl⟩
  rw [version_renumbered, if_pos rfl]
  exact Nat.lt_succ_self _

/-- **Every name was given, and to one value**; the variables have different names. -/
structure Named (s : Tracked) : Prop where
  declared : (s.reaching.vars.map Variable.name).Nodup
  issued : ∀ {i : Nat} {n}, (s.graph.survey Value.name)[i]? = some (some n) → s.Issued n
  unique : ∀ {i j : Nat} {n}, (s.graph.survey Value.name)[i]? = some (some n) →
    (s.graph.survey Value.name)[j]? = some (some n) → i = j

namespace Named

theorem namesUnique (h : s.Named) : s.graph.NamesUnique := by
  intro v w x y n hx hy hxn hyn
  have hseen : ∀ {u : ValueId} {z : Value}, s.graph.value? u = some z → z.name = some n →
      (s.graph.survey Value.name)[u.index]? = some (some n) := fun hz hn => by
    rw [Graph.getElem?_survey, hz]
    exact congrArg some hn
  exact congrArg ValueId.mk (h.unique (hseen hx hxn) (hseen hy hyn))

/-- Of the graph only the names of its values count, -/
theorem onGraph (h : s.Named) {g : Graph} (hg : g.survey Value.name = s.graph.survey Value.name) :
    Named ⟨g, s.reaching⟩ :=
  ⟨h.declared, fun hi => h.issued (hg ▸ hi), fun hi hj => h.unique (hg ▸ hi) (hg ▸ hj)⟩

/-- of the tables the declarations and the numbers given, -/
theorem onTables (h : s.Named) {r : Reaching} (hvars : r.vars = s.reaching.vars)
    (hversions : r.versions = s.reaching.versions) : Named ⟨s.graph, r⟩ := by
  obtain ⟨vars, defs, holders, pending, filling, nameValues, versions, stats⟩ := r
  subst hvars hversions
  exact ⟨h.declared, h.issued, h.unique⟩

/-- and a value without a name makes no difference. -/
theorem pushed (h : s.Named) {g : Graph}
    (hg : g.survey Value.name = s.graph.survey Value.name ++ [none]) : Named ⟨g, s.reaching⟩ := by
  have hold : ∀ {i : Nat} {n}, (g.survey Value.name)[i]? = some (some n) →
      (s.graph.survey Value.name)[i]? = some (some n) := by
    intro i n hi
    rw [hg, List.getElem?_append] at hi
    split at hi
    · exact hi
    · exact absurd (List.mem_of_getElem? hi) (by simp)
  exact ⟨h.declared, fun hi => h.issued (hold hi), fun hi hj => h.unique (hold hi) (hold hj)⟩

/-- The next name after a variable has not been given. -/
theorem not_issued (h : s.Named) {x : VarId} {d : Variable}
    (hd : variableById? s.reaching.vars x = some d) : ¬ s.Issued (d.versionName (s.version x)) := by
  rintro ⟨y, e, i, he, hi, hname⟩
  obtain ⟨hnames, rfl⟩ := Variable.versionName_inj hname
  have hsame : d = e := List.inj_on_of_nodup_map h.declared (mem_of_variableById? hd)
    (mem_of_variableById? he) hnames
  subst hsame
  have hid : x = y := (id_of_variableById? hd).symm.trans (id_of_variableById? he)
  subst hid
  exact Nat.lt_irrefl _ hi

/-- **The next name after a variable is given to a value**, and its number is used up. -/
theorem renumbered (h : s.Named) {x : VarId} {d : Variable}
    (hd : variableById? s.reaching.vars x = some d) (v : ValueId) {g : Graph}
    (hg : g.survey Value.name =
      (s.graph.survey Value.name).set v.index (some (d.versionName (s.version x)))) :
    (s.renumbered x g).Named := by
  have hseen : ∀ {i : Nat} {n}, (g.survey Value.name)[i]? = some (some n) →
      (v.index = i ∧ n = d.versionName (s.version x)) ∨
        (s.graph.survey Value.name)[i]? = some (some n) := by
    intro i n hi
    rw [hg, List.getElem?_set] at hi
    split at hi
    · split at hi
      · exact .inl ⟨‹_›, (Option.some.inj (Option.some.inj hi)).symm⟩
      · cases hi
    · exact .inr hi
  refine ⟨h.declared, fun hi => ?_, fun hi hj => ?_⟩
  · rcases hseen hi with ⟨-, rfl⟩ | hi
    · exact issued_renumbered hd g
    · exact (h.issued hi).renumbered x g
  · rcases hseen hi with ⟨ei, rfl⟩ | hi <;> rcases hseen hj with ⟨ej, en⟩ | hj
    · exact ei.symm.trans ej
    · exact absurd (h.issued hj) (h.not_issued hd)
    · exact absurd (en ▸ h.issued hi) (h.not_issued hd)
    · exact h.unique hi hj

/-- **A new name is new**, and the next one will be. -/
theorem christened (h : s.Named) (x : VarId) (o : Operand) : (s.christened x o).Named := by
  unfold Tracked.christened
  split
  · rename_i v d hd
    split
    · rename_i hdue
      obtain ⟨z, hz, hname⟩ := Option.map_eq_some_iff.1 hdue.2
      refine h.renumbered hd v ((Graph.survey_updateValue_eq_set hz _).trans ?_)
      rw [hname]
      rfl
    · exact h
  · exact h

theorem withPhi (h : s.Named) (b : BlockId) (x : VarId) (ty : Ty) :
    Named ⟨s.graph.withPhi b x ty, s.reaching⟩ := h.pushed (s.graph.survey_withPhi b x ty)

end Named

/-- Of the graph the names of its values are seen. -/
theorem surveys_named : Surveys Value.name Named where
  overlooks := ⟨fun _ _ _ => rfl, fun _ _ => rfl⟩
  onGraph h hg := h.onGraph hg
  withInstr h b place ty origin i := h.pushed (Graph.survey_withInstr _ b place ty origin i)

end Tracked

/-! ## 3. Whole lowerings -/

namespace Lower

open Tracked (Named surveys_named)

/-- **Everything that reads and seals are made of keeps names unique.** -/
theorem compositional_named : Compositional (Endures Named) where
  toEmissive := emissive_endures surveys_named
  appendPhi b x ty := by
    rw [← tracking_onGraph]
    refine endures_tracking fun s hs => (Leaves.focus_iff _).2 ?_
    refine (Edit.leaves_appendPhi b x ty s.graph).mono (fun _ g hg => ?_) fun v g hg => ?_
    · exact hg ▸ hs
    · rw [hg.2]
      exact ⟨hs.withPhi b x ty, trivial⟩
  pushIncoming v o q :=
    endures_editing surveys_named (Edit.spares_pushIncoming surveys_named.overlooks v o q)
  updateValue v f hf := by
    refine endures_editing surveys_named (Edit.spares_updateValue v fun x => ?_)
    -- a change that does not see the name leaves it as it is
    have hname := congrArg Value.name (hf x x.name)
    exact hname
  replaceUses v o :=
    endures_editing surveys_named (Edit.spares_replaceUses surveys_named.overlooks v o)
  detach v := endures_editing surveys_named (Edit.spares_detach (fun _ => rfl) v)
  setForward _ _ := endures_editing surveys_named (.modify fun _ => rfl)
  sealed b := endures_editing surveys_named (Edit.spares_updateBlock b _)
  onTables _ hf := endures_tracking (.modify fun s hs =>
    hs.onTables (hf.vars s.reaching) (hf.versions s.reaching))
  christen x o := endures_tracking (.modify fun _ hs => hs.christened x o)

/-- **Names stay unique through a whole lowering.** -/
theorem enduring_named : Enduring Value.name Named where
  toSurveys := surveys_named
  read := compositional_named.read
  sealBlock := compositional_named.sealBlock
  recorded hs _ _ _ := hs.onTables rfl rfl
  christened hs := hs.christened

end Lower

namespace Program

/-- **No two values have the same name**, attached or not, in whatever state a lowering ends, with
    an answer or with a fault, if the variables of the program have different names; so it is in the
    graph that is the result. -/
theorem names_unique {p : Program} (hnames : (p.vars.map Variable.name).Nodup) (s : Settings) :
    (p.reached s).bench.graph.NamesUnique ∧ ∀ r, p.lower s = .ok r → r.graph.NamesUnique := by
  have hstart : (Lowering.start p s).tracked.Named :=
    ⟨hnames, fun hi => (nomatch hi), fun hi => (nomatch hi)⟩
  have hunique : (p.reached s).bench.graph.NamesUnique :=
    (Lower.enduring_named.reached hstart).namesUnique
  refine ⟨hunique, fun r hr => ?_⟩
  obtain ⟨b, l, run, rfl⟩ := run_of_lower hr
  have hreached : p.reached s = l := by
    unfold reached after
    rw [run]
  exact hreached ▸ hunique

/-- A program with a variable whose name could be one after the other variable. -/
def namesakes : Program where
  name := "namesakes"
  vars := [⟨⟨0⟩, "x", .unsigned 8, []⟩, ⟨⟨1⟩, "x_1", .unsigned 8, []⟩]
  ports := [⟨⟨0⟩, "in", .unsigned 8, .input⟩, ⟨⟨1⟩, "out", .unsigned 8, .output⟩]
  body := [.read ⟨0⟩ ⟨0⟩, .read ⟨0⟩ ⟨0⟩, .read ⟨0⟩ ⟨1⟩,
    .whileLoop (.compare .lt (.var ⟨0⟩) (.lit (.ofNat 100 (.unsigned 8))))
      [.write ⟨1⟩ (.var ⟨1⟩)]]

/-- Of the values of `namesakes` three data and two phis, both of which are removed, have names. -/
theorem names_unique_namesakes : (namesakes.vars.map Variable.name).Nodup ∧
    ∃ r, namesakes.lower { Preset.fast.settings with nameValues := true } = .ok r ∧
      r.graph.survey Value.name = [some "x_0", some "x_1", some "x_1_0", some "x_2", none,
        some "x_1_1", none] ∧
      (r.graph.values.toList.filter fun x => !x.isAttached).map Value.name =
        [some "x_2", some "x_1_1"] ∧
      r.graph.NamesUnique := by
  have hnames : (namesakes.vars.map Variable.name).Nodup := by decide
  have hrun : (namesakes.lower { Preset.fast.settings with nameValues := true }).toOption.any
      (fun r => r.graph.survey Value.name = [some "x_0", some "x_1", some "x_1_0", some "x_2",
        none, some "x_1_1", none] ∧
        (r.graph.values.toList.filter fun x => !x.isAttached).map Value.name =
          [some "x_2", some "x_1_1"]) = true := by decide +kernel
  obtain ⟨r, hr, htest⟩ := exists_lower_of_any hrun
  obtain ⟨hgiven, hgone⟩ := of_decide_eq_true htest
  exact ⟨hnames, r, hr, hgiven, hgone, (names_unique hnames _).2 r hr⟩

end Program

end BitFlow
