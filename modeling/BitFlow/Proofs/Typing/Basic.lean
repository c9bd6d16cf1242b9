import BitFlow.Proofs.Emit.Applied
import BitFlow.Proofs.Reaching.Sealing

/-!
# Types of the graph

Types are checked where an instruction is made. Afterwards phis are removed, and their users take
over the operand that replaces them, so that the types have to be an invariant of all places where
an operand can stand: definitions, phis, forwards, instructions and conditions.

Main statements: `Typed.typeOf?_resolve` -- an operand stands for one of its own type;
`Typed.step` -- every step of reading and sealing keeps the types.
-/

namespace BitFlow

/-! ## 1. What operators ask for -/

/-- The operator may be applied to operands of the types `tys` and then gives type `ty`. -/
def Opcode.Admits (op : Opcode) (tys : List Ty) (ty : Ty) : Prop :=
  match op, tys with
  | .unary _, [a] => ty = a
  | .binary o, [a, b] => ty = a ∧ (o.isShift = true ∨ b = a)
  | .compare _, [a, b] => b = a ∧ ty = .bit
  | .concat, tys => tys ≠ [] ∧ ty = .unsigned (min (widthSum tys) wordMax)
  | .index, [_, _] => ty = .bit
  | .slice msb lsb, [a] => lsb ≤ msb ∧ msb < a.width ∧ ty = .unsigned (msb - lsb + 1)
  | .select, [c, a, b] => c = .bit ∧ a = ty ∧ b = ty
  | .cast, [_] => True
  | .assign, [] => True
  | .assign, [a] => a = ty
  | _, _ => False

/-- The access to a declared port agrees with its type and its direction: nothing goes in and the
    datum comes out, or the other way round. -/
def PortUse.Admits (p : Program) (u : PortUse) (tys : List Ty) (ty : Ty) : Prop :=
  ∃ port ∈ p.ports, u.port = port.id ∧ port.ty = ty ∧
    match u.access with
    | .read => port.direction = .input ∧ tys = []
    | .write => port.direction = .output ∧ tys = [ty]

/-- The instruction may be applied to operands of the types `tys` and then gives type `ty`; the
    port accesses are the instructions that touch a port. -/
structure Instr.Admits (p : Program) (i : Instr) (tys : List Ty) (ty : Ty) : Prop where
  op : i.op.Admits tys ty
  port : ∀ {u}, i.portUse = some u → i.op = .assign ∧ u.Admits p tys ty
  assign : i.op = .assign → ∃ u, i.portUse = some u

/-! ## 2. Types of operands in a growing graph -/

namespace Graph

variable {g : Graph} {o : Operand} {ty : Ty}

theorem knows_of_typeOf? (h : g.typeOf? o = some ty) : g.Knows o := by
  rintro v rfl
  obtain ⟨x, hx, -⟩ := Option.map_eq_some_iff.1 h
  exact index_lt_of_value? hx

/-- The type of an operand depends on the value that it names alone. -/
theorem typeOf?_congr {g' : Graph} (h : ∀ v, o = .value v →
    (g'.value? v).map Value.ty = (g.value? v).map Value.ty) : g'.typeOf? o = g.typeOf? o := by
  cases o with
  | value v => exact h v rfl
  | lit c => rfl
  | undef ty => rfl

theorem typeOf?_nextValue (g : Graph) : g.typeOf? (.value g.nextValue) = none := by
  show (g.value? g.nextValue).map Value.ty = none
  rw [value?_nextValue]
  rfl

theorem typeOf?_withPhi (g : Graph) (b : BlockId) (x : VarId) (t : Ty) (o : Operand) :
    (g.withPhi b x t).typeOf? o = if o = .value g.nextValue then some t else g.typeOf? o := by
  cases o with
  | value v =>
    show ((g.withPhi b x t).value? v).map Value.ty = _
    rw [value?_withPhi]
    by_cases e : v = g.nextValue
    · rw [if_pos e, if_pos (by rw [e])]
      rfl
    · rw [if_neg e, if_neg fun h => e (Operand.value.inj h)]
      rfl
  | lit c => rw [if_neg (by simp)]; rfl
  | undef t' => rw [if_neg (by simp)]; rfl

theorem typeOf?_withInstr (g : Graph) (b : BlockId) (place : Nat) (t : Ty) (origin : Origin)
    (i : Instr) (o : Operand) : (g.withInstr b place t origin i).typeOf? o =
      if o = .value g.nextValue then some t else g.typeOf? o := by
  cases o with
  | value v =>
    show ((g.withInstr b place t origin i).value? v).map Value.ty = _
    rw [value?_withInstr]
    by_cases e : v = g.nextValue
    · rw [if_pos e, if_pos (by rw [e])]
      rfl
    · rw [if_neg e, if_neg fun h => e (Operand.value.inj h)]
      rfl
  | lit c => rw [if_neg (by simp)]; rfl
  | undef t' => rw [if_neg (by simp)]; rfl

/-- What has a type is not the next value. -/
theorem ne_nextValue_of_typeOf? (h : g.typeOf? o = some ty) : o ≠ .value g.nextValue := by
  rintro rfl
  rw [typeOf?_nextValue] at h
  cases h

theorem typeOf?_withIncoming (g : Graph) (v : ValueId) (phi : Phi) (a : Operand) (q : BlockId)
    (o : Operand) : (g.withIncoming v phi a q).typeOf? o = g.typeOf? o :=
  typeOf?_congr fun w _ => by
    rw [value?_withIncoming, Option.map_map]
    congr 1
    funext x
    show (if v = w then _ else x).ty = x.ty
    split <;> rfl

theorem Retired.typeOf? {v : ValueId} {a : Operand} {g' : Graph} (h : Retired v a g g')
    (o : Operand) : g'.typeOf? o = g.typeOf? o :=
  typeOf?_congr fun w _ => by
    rw [h.value, Option.map_map]
    congr 1
    funext x
    show (if w = v then x.retire v a else if x.isAttached then x.replace (.value v) a else x).ty =
      x.ty
    split
    · rfl
    · split <;> rfl

theorem Alike.typeOf? {g' : Graph} (h : g.Alike g') (o : Operand) :
    g'.typeOf? o = g.typeOf? o := by
  obtain ⟨G, hG, hsame⟩ := h.value
  refine typeOf?_congr fun w _ => ?_
  rw [hG, Option.map_map]
  congr 1
  funext x
  exact (hsame w x).2.1

/-- Replacing an operand by one of its type keeps all types. -/
theorem typeOf?_replace {v : ValueId} {a : Operand} (h : g.typeOf? a = g.typeOf? (.value v))
    (o : Operand) : g.typeOf? (Operand.replace (.value v) a o) = g.typeOf? o := by
  unfold Operand.replace
  split
  · rename_i e
    rw [e, h]
  · rfl

/-- What is attached has a type. -/
theorem Anchors.typeOf? (h : g.Anchors o) : ∃ ty, g.typeOf? o = some ty := by
  cases o with
  | value v =>
    obtain ⟨x, hx, -⟩ := h v rfl
    exact ⟨x.ty, typeOf?_value hx⟩
  | lit c => exact ⟨c.ty, rfl⟩
  | undef ty => exact ⟨ty, rfl⟩

/-- No type is taken away from an operand. -/
def KeepsTypes (g g' : Graph) : Prop :=
  ∀ o ty, g.typeOf? o = some ty → g'.typeOf? o = some ty

theorem KeepsTypes.refl (g : Graph) : g.KeepsTypes g := fun _ _ ho => ho

theorem KeepsTypes.trans {g g' g'' : Graph} (h : g.KeepsTypes g') (h' : g'.KeepsTypes g'') :
    g.KeepsTypes g'' := fun o ty ho => h' o ty (h o ty ho)

theorem KeepsTypes.map {g g' : Graph} (h : g.KeepsTypes g') {os : List Operand} {tys : List Ty}
    (hos : os.map g.typeOf? = tys.map some) : os.map g'.typeOf? = tys.map some := by
  induction os generalizing tys with
  | nil => exact hos
  | cons o os ih =>
    cases tys with
    | nil => cases hos
    | cons ty tys =>
      obtain ⟨h1, h2⟩ := List.cons.inj hos
      rw [List.map_cons, List.map_cons, h o ty h1, ih h2]

theorem keepsTypes_withPhi (g : Graph) (b : BlockId) (x : VarId) (t : Ty) :
    g.KeepsTypes (g.withPhi b x t) := by
  intro o ty ho
  rw [typeOf?_withPhi, if_neg (ne_nextValue_of_typeOf? ho), ho]

theorem keepsTypes_withInstr (g : Graph) (b : BlockId) (place : Nat) (t : Ty) (origin : Origin)
    (i : Instr) : g.KeepsTypes (g.withInstr b place t origin i) := by
  intro o ty ho
  rw [typeOf?_withInstr, if_neg (ne_nextValue_of_typeOf? ho), ho]

end Graph

theorem Step.keepsTypes {floor : Nat} {scope : VarId → Prop} {closing : Option BlockId}
    {s t : Tracked} {new : Option NewPhi} (h : Step floor scope closing s new t) :
    s.graph.KeepsTypes t.graph := by
  cases h with
  | opened => exact s.graph.keepsTypes_withPhi _ _ _
  | awaited => exact s.graph.keepsTypes_withPhi _ _ _
  | pushed => exact fun _ _ ho => (s.graph.typeOf?_withIncoming _ _ _ _ _).trans ho
  | retired _ _ _ _ _ hg => exact fun _ _ ho => (hg.typeOf? _).trans ho
  | alike ha => exact fun _ _ ho => (ha.graph.typeOf? _).trans ho
  | started => exact .refl _
  | filled => exact .refl _
  | recorded => exact .refl _

theorem Steps.keepsTypes {floor : Nat} {scope : VarId → Prop} {closing : Option BlockId}
    {s t : Tracked} {made : List NewPhi} (h : Steps floor scope closing s made t) :
    s.graph.KeepsTypes t.graph := by
  induction h with
  | refl => exact .refl _
  | cons hstep _ ih => exact hstep.keepsTypes.trans ih

/-! ## 3. The invariant -/

/-- **Graph and tables are typed**: what a variable holds is of its declared type, the operands of
    a phi are of the type of the phi, a removed value stands for an operand of its type,
    instructions are applied to what they ask for, and conditions are truth values. -/
structure Typed (p : Program) (s : Tracked) : Prop where
  defs : ∀ {b x o}, s.reaching.defs.get? (b, x) = some o →
    ∃ d, variableById? s.reaching.vars x = some d ∧ s.graph.typeOf? o = some d.ty
  phis : ∀ {v q}, s.graph.phi? v = some q → ∀ o ∈ q.operands, s.graph.typeOf? o = some q.ty
  forwards : ∀ {v o}, s.graph.forwards.get? v = some o →
    ∃ ty, s.graph.typeOf? (.value v) = some ty ∧ s.graph.typeOf? o = some ty
  code : ∀ {v i}, s.graph.instr? v = some i →
    ∃ tys, i.instr.operands.map s.graph.typeOf? = tys.map some ∧ i.instr.Admits p tys i.ty
  conds : ∀ {b br o}, br ∈ s.graph.branches b → br.cond = some o → s.graph.typeOf? o = some .bit

namespace Typed

variable {p : Program} {s t : Tracked} {closing : Option BlockId}

/-- **An operand stands for one of its own type.** -/
theorem typeOf?_resolve (h : Typed p s) (o : Operand) :
    s.graph.typeOf? (s.graph.resolve o) = s.graph.typeOf? o := by
  refine Graph.of_resolve (G := fun a => s.graph.typeOf? a = s.graph.typeOf? o)
    (fun {v next} hv hnext => ?_) rfl
  obtain ⟨ty, hty, hnext⟩ := h.forwards hnext
  exact (hnext.trans hty.symm).trans hv

/-- What is recorded is of the declared type, as it stands now too. -/
theorem reached (h : Typed p s) {x : VarId} {b : BlockId} {o : Operand}
    (ho : s.reached x b = some o) :
    ∃ d, variableById? s.reaching.vars x = some d ∧ s.graph.typeOf? o = some d.ty := by
  obtain ⟨a, ha, rfl⟩ := Option.map_eq_some_iff.1 ho
  obtain ⟨d, hd, ht⟩ := h.defs ha
  exact ⟨d, hd, (h.typeOf?_resolve a).trans ht⟩

theorem reads (h : Typed p s) {x : VarId} {b : BlockId} {o : Operand} (ho : s.Reads x b o) :
    ∃ d, variableById? s.reaching.vars x = some d ∧ s.graph.typeOf? o = some d.ty := by
  cases ho with
  | again ho => exact h.reached ho
  | nowhere _ _ _ d hd ho =>
    subst ho
    exact ⟨d, hd, rfl⟩
  | through _ _ q _ ho => exact h.reached ho

/-! ## 4. Steps keep the types -/

/-- A change that takes no type away, leaves the forwards alone, and is right about all that is
    new. -/
theorem grow (h : Typed p s)
    (htype : s.graph.KeepsTypes t.graph)
    (hvars : t.reaching.vars = s.reaching.vars)
    (hdefs : ∀ {b x o}, t.reaching.defs.get? (b, x) = some o →
      s.reaching.defs.get? (b, x) = some o ∨
        ∃ d, variableById? s.reaching.vars x = some d ∧ t.graph.typeOf? o = some d.ty)
    (hphis : ∀ {v q}, t.graph.phi? v = some q → s.graph.phi? v = some q ∨
      ∀ o ∈ q.operands, t.graph.typeOf? o = some q.ty)
    (hf : t.graph.forwards = s.graph.forwards)
    (hcode : ∀ {v i}, t.graph.instr? v = some i → s.graph.instr? v = some i ∨
      ∃ tys, i.instr.operands.map s.graph.typeOf? = tys.map some ∧ i.instr.Admits p tys i.ty)
    (hconds : ∀ {b br o}, br ∈ t.graph.branches b → br.cond = some o →
      br ∈ s.graph.branches b ∨ s.graph.typeOf? o = some .bit) : Typed p t := by
  refine ⟨fun {b x o} ho => ?_, fun {v q} hq o ho => ?_, fun {v o} ho => ?_, fun {v i} hi => ?_,
    fun {b br o} hbr ho => ?_⟩
  · rw [hvars]
    rcases hdefs ho with ho | ho
    · obtain ⟨d, hd, ht⟩ := h.defs ho
      exact ⟨d, hd, htype _ _ ht⟩
    · exact ho
  · rcases hphis hq with hq | hq
    · exact htype _ _ (h.phis hq o ho)
    · exact hq o ho
  · rw [hf] at ho
    obtain ⟨ty, h1, h2⟩ := h.forwards ho
    exact ⟨ty, htype _ _ h1, htype _ _ h2⟩
  · rcases hcode hi with hi | ⟨tys, htys, ha⟩
    · obtain ⟨tys, htys, ha⟩ := h.code hi
      exact ⟨tys, htype.map htys, ha⟩
    · exact ⟨tys, htype.map htys, ha⟩
  · rcases hconds hbr ho with hbr | hty
    · exact htype _ _ (h.conds hbr ho)
    · exact htype _ _ hty

theorem alike (h : Typed p s) (ha : s.Alike t) : Typed p t := by
  refine h.grow (fun o ty ho => ?_) ha.vars (fun ho => .inl ?_) (fun hq => .inl ?_)
    ha.graph.forwards (fun hi => .inl ?_) fun hbr _ => .inl ?_
  · rw [ha.graph.typeOf?, ho]
  · rwa [ha.defs] at ho
  · rwa [ha.graph.phi?] at hq
  · rwa [ha.graph.instr?] at hi
  · rwa [ha.graph.branches] at hbr

theorem recorded (h : Typed p s) {x : VarId} {d : Variable} {o : Operand}
    (hd : variableById? s.reaching.vars x = some d) (ho : s.graph.typeOf? o = some d.ty)
    (b : BlockId) : Typed p (s.recorded x b o) := by
  refine h.grow (.refl _) rfl (fun {c z a} ha => ?_) .inl rfl .inl fun hbr _ => .inl hbr
  change (s.reaching.record x b o).defs.get? (c, z) = some a at ha
  rw [Reaching.get?_record] at ha
  split at ha
  · rename_i e
    cases e
    cases ha
    exact .inr ⟨d, hd, ho⟩
  · exact .inl ha

/-- A new phi, which is recorded in its block. -/
theorem withPhi (h : Typed p s) {b : BlockId} {x : VarId} {d : Variable}
    (hd : variableById? s.reaching.vars x = some d)
    (hg : t.graph = s.graph.withPhi b x d.ty) (hvars : t.reaching.vars = s.reaching.vars)
    (hdefs : t.reaching.defs = (s.reaching.record x b (.value s.graph.nextValue)).defs) :
    Typed p t := by
  have htype : s.graph.KeepsTypes t.graph := by
    rw [hg]
    exact s.graph.keepsTypes_withPhi b x d.ty
  refine h.grow htype hvars (fun {c z a} ha => ?_) (fun {v q} hq => ?_) (by rw [hg]; rfl)
    (fun {v i} hi => .inl ?_) fun {c br o} hbr _ => .inl ?_
  · rw [hdefs, Reaching.get?_record] at ha
    split at ha
    · rename_i e
      cases e
      cases ha
      exact .inr ⟨d, hd, by rw [hg, Graph.typeOf?_withPhi, if_pos rfl]⟩
    · exact .inl ha
  · rw [hg, Graph.phi?_withPhi] at hq
    split at hq
    · cases hq
      exact .inr fun o ho => by cases ho
    · exact .inl hq
  · rwa [hg, Graph.instr?_withPhi] at hi
  · rwa [hg, Graph.branches_withPhi] at hbr

/-- A phi gets an operand of its type. -/
theorem pushed (h : Typed p s) {v : ValueId} {q : OwnedPhi} (hq : s.graph.phi? v = some q)
    {o : Operand} (ho : s.graph.typeOf? o = some q.ty) (c : BlockId) :
    Typed p (s.pushed v q o c) := by
  have htype := s.graph.typeOf?_withIncoming v ⟨q.var, q.incoming⟩ o c
  refine h.grow (fun a ty ha => (htype a).trans ha) rfl .inl (fun {w q'} hq' => ?_)
    (s.graph.forwards_withIncoming v _ o c) (fun {w i} hi => .inl ?_) fun {b br a} hbr _ => .inl ?_
  · rw [show (s.pushed v q o c).graph.phi? w = _ from Graph.phi?_withIncoming hq o c w] at hq'
    split at hq'
    · cases hq'
      refine .inr fun a ha => (htype a).trans ?_
      have ha' : a ∈ q.operands ∨ a = o := by
        simpa [OwnedPhi.operands, OwnedPhi.push] using ha
      rcases ha' with ha' | rfl
      · exact h.phis hq a ha'
      · exact ho
    · exact .inl hq'
  · rwa [show (s.pushed v q o c).graph.instr? w = _ from Graph.instr?_withIncoming hq o c w] at hi
  · rwa [show (s.pushed v q o c).graph.branches b = _ from
      s.graph.branches_withIncoming v _ o c b] at hbr

/-- **Retiring a superfluous phi keeps the types**: it is replaced by an operand of its type. -/
theorem retired (h : Typed p s) (hs : Sane closing s) {v : ValueId} {q : OwnedPhi} {o : Operand}
    {g : Graph} (hq : s.graph.phi? v = some q)
    (ho : soleOperand (.value v) (.undef q.ty) q.operands = some o)
    (hg : Graph.Retired v o s.graph g) : Typed p ⟨g, s.reaching.reroute v o⟩ := by
  obtain ⟨x, hx, -, hxty, -⟩ := Graph.phi?_eq_some.1 hq
  have hvt : s.graph.typeOf? (.value v) = some q.ty := by
    rw [Graph.typeOf?_value hx, hxty]
  have hot : s.graph.typeOf? o = some q.ty := by
    obtain ⟨-, ⟨hm, -⟩ | ⟨rfl, -⟩⟩ := soleOperand_eq_some ho
    · exact h.phis hq o hm
    · rfl
  have hrep : ∀ a, g.typeOf? (Operand.replace (.value v) o a) = s.graph.typeOf? a := by
    intro a
    rw [hg.typeOf?]
    exact Graph.typeOf?_replace (hot.trans hvt.symm) a
  obtain ⟨defs, holders, hr⟩ := s.reaching.reroute_eq v o
  have hvars : (s.reaching.reroute v o).vars = s.reaching.vars := by rw [hr]
  refine ⟨fun {b z a} ha => ?_, fun {w q'} hq' a ha => ?_, fun {w a} ha => ?_,
    fun {w i} hi => ?_, fun {b br a} hbr ha => ?_⟩
  · change (s.reaching.reroute v o).defs.get? (b, z) = some a at ha
    rw [Reaching.get?_reroute hs.mirrored] at ha
    obtain ⟨a', ha', rfl⟩ := Option.map_eq_some_iff.1 ha
    obtain ⟨d, hd, ht⟩ := h.defs ha'
    exact ⟨d, by rw [← hvars] at hd; exact hd, (hrep a').trans ht⟩
  · change g.phi? w = some q' at hq'
    rw [hg.phi?] at hq'
    split at hq'
    · cases hq'
    · obtain ⟨q₀, hq₀, rfl⟩ := Option.map_eq_some_iff.1 hq'
      rw [OwnedPhi.operands_replace] at ha
      obtain ⟨a', ha', rfl⟩ := List.mem_map.1 ha
      exact (hrep a').trans (h.phis hq₀ a' ha')
  · change g.forwards.get? w = some a at ha
    rw [hg.forwards, Table.get?_insert] at ha
    show ∃ ty, g.typeOf? (.value w) = some ty ∧ g.typeOf? a = some ty
    rw [hg.typeOf?, hg.typeOf?]
    split at ha
    · rename_i e
      subst e
      cases ha
      exact ⟨q.ty, hvt, hot⟩
    · exact h.forwards ha
  · change g.instr? w = some i at hi
    rw [hg.instr? (by rw [hq]; rfl)] at hi
    obtain ⟨i₀, hi₀, rfl⟩ := Option.map_eq_some_iff.1 hi
    obtain ⟨tys, htys, ha⟩ := h.code hi₀
    refine ⟨tys, ?_, ⟨ha.op, ha.port, ha.assign⟩⟩
    show (i₀.instr.operands.map (Operand.replace (.value v) o)).map g.typeOf? = tys.map some
    rw [List.map_map, ← htys]
    exact List.map_congr_left fun a _ => hrep a
  · change br ∈ g.branches b at hbr
    rw [hg.branches] at hbr
    obtain ⟨br₀, hbr₀, rfl⟩ := List.mem_map.1 hbr
    obtain ⟨a', ha', rfl⟩ := Option.map_eq_some_iff.1 ha
    exact (hrep a').trans (h.conds hbr₀ ha')

/-- **Every step of reading and sealing keeps the types.** -/
theorem step {floor : Nat} {scope : VarId → Prop} {new : Option NewPhi} (h : Typed p s)
    (hs : Sane closing s) (hst : Step floor scope closing s new t) : Typed p t := by
  cases hst with
  | opened _ _ _ _ hd _ => exact h.withPhi hd rfl rfl rfl
  | awaited _ _ _ hd _ => exact h.withPhi hd rfl rfl rfl
  | started => exact h.grow (.refl _) rfl .inl .inl rfl .inl fun hbr _ => .inl hbr
  | pushed _ _ hq _ ho =>
    -- the phi and what is recorded for its variable are both of the declared type
    obtain ⟨d, hd, ht⟩ := h.reached ho
    obtain ⟨d', hd', ht'⟩ := hs.declared hq
    cases hd.symm.trans hd'
    exact h.pushed hq (ht.trans (congrArg some ht')) _
  | filled => exact h.grow (.refl _) rfl .inl .inl rfl .inl fun hbr _ => .inl hbr
  | retired _ hq _ _ ho hg => exact h.retired hs hq ho hg
  | recorded _ ho =>
    obtain ⟨d, hd, ht⟩ := h.reads ho
    exact h.recorded hd ht _
  | alike ha => exact h.alike ha

/-- **Reading and sealing keep the types.** -/
theorem steps {floor : Nat} {scope : VarId → Prop} {made : List NewPhi}
    (hst : Steps floor scope closing s made t) : Sane closing s → Typed p s → Typed p t := by
  induction hst with
  | refl => exact fun _ h => h
  | cons hstep _ ih => exact fun hs h => ih (hs.step hstep) (h.step hs hstep)

end Typed

end BitFlow
