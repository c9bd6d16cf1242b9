import BitFlow.Proofs.Graph.Steady

/-!
# Which block has an operand at hand

A value that is there is owned by one block. An operand is at hand in a block if it is no value or
one that this block owns. Values are owned by the block in which they are made, until they are
removed.

Main statements: one equation per operation for the owner of a value, such as
`Graph.owner?_withInstr` and `Graph.Retired.owner?`.
-/

namespace BitFlow

namespace Graph

variable {g g' : Graph} {b c : BlockId} {v w : ValueId} {o : Operand}

/-- The block `a` defines the value `u`. -/
def Owns (g : Graph) (a : BlockId) (u : ValueId) : Prop :=
  ∃ x, g.value? u = some x ∧ x.block = some a

/-- The block that owns a value that is there. -/
def owner? (g : Graph) (v : ValueId) : Option BlockId := (g.value? v).bind Value.block

/-- The operand is no value, or a value of the block `b`. -/
def AtHand (g : Graph) (b : BlockId) (o : Operand) : Prop := ∀ v, o = .value v → g.Owns b v

theorem owns_iff : g.Owns b v ↔ g.owner? v = some b := Option.bind_eq_some_iff.symm

theorem Owns.unique (h : g.Owns b v) (h' : g.Owns c v) : b = c :=
  Option.some.inj ((owns_iff.1 h).symm.trans (owns_iff.1 h'))

theorem Owns.attached (h : g.Owns b v) : g.Attached v := by
  obtain ⟨x, hx, hb⟩ := h
  refine ⟨x, hx, ?_⟩
  unfold Value.isAttached
  rw [hb]
  rfl

theorem owns_of_phi? {p : OwnedPhi} (h : g.phi? v = some p) : g.Owns p.block v := by
  obtain ⟨x, hx, hb, -⟩ := phi?_eq_some.1 h
  exact ⟨x, hx, hb⟩

theorem atHand_lit (g : Graph) (b : BlockId) (c : Literal) : g.AtHand b (.lit c) :=
  fun _ hv => by cases hv

theorem atHand_undef (g : Graph) (b : BlockId) (ty : Ty) : g.AtHand b (.undef ty) :=
  fun _ hv => by cases hv

theorem atHand_value (h : g.Owns b v) : g.AtHand b (.value v) := fun _ hw => by
  cases hw
  exact h

theorem AtHand.anchors (h : g.AtHand b o) : g.Anchors o := fun v hv => (h v hv).attached

theorem AtHand.mono (h : g.AtHand b o) (hg : ∀ v, g.Owns b v → g'.Owns b v) : g'.AtHand b o :=
  fun v hv => hg v (h v hv)

/-! ## 1. Owners after an operation -/

theorem owner?_nextValue (g : Graph) : g.owner? g.nextValue = none := by
  unfold owner?
  rw [value?_nextValue]
  rfl

theorem owner?_link (g : Graph) (q : BlockId) (cond : Option Operand) (b : BlockId) (v : ValueId) :
    (g.link q cond b).owner? v = g.owner? v := by
  unfold owner?
  rw [value?_link]

theorem owner?_withInstr (g : Graph) (b : BlockId) (place : Nat) (ty : Ty) (origin : Origin)
    (i : Instr) (v : ValueId) :
    (g.withInstr b place ty origin i).owner? v = if v = g.nextValue then some b else g.owner? v := by
  unfold owner?
  rw [value?_withInstr]
  split <;> rfl

theorem owner?_withPhi (g : Graph) (b : BlockId) (x : VarId) (ty : Ty) (v : ValueId) :
    (g.withPhi b x ty).owner? v = if v = g.nextValue then some b else g.owner? v := by
  unfold owner?
  rw [value?_withPhi]
  split <;> rfl

theorem owner?_withIncoming (g : Graph) (v : ValueId) (phi : Phi) (o : Operand) (q : BlockId)
    (w : ValueId) : (g.withIncoming v phi o q).owner? w = g.owner? w := by
  unfold owner?
  rw [value?_withIncoming, Option.bind_map]
  congr 1
  funext x
  show Value.block (if v = w then _ else x) = x.block
  split <;> rfl

theorem Alike.owner? (h : g.Alike g') (v : ValueId) : g'.owner? v = g.owner? v := by
  obtain ⟨G, hG, hsame⟩ := h.value
  unfold Graph.owner?
  rw [hG, Option.bind_map]
  congr 1
  funext x
  exact (hsame v x).2.2.1

/-- A value that is retired has no owner any more. -/
theorem Retired.owner? (h : Retired v o g g') (w : ValueId) :
    g'.owner? w = if w = v then none else g.owner? w := by
  unfold Graph.owner?
  rw [h.value, Option.bind_map]
  split
  · cases g.value? w with
    | none => rfl
    | some x => simp [Value.retire]
  · congr 1
    funext x
    simp only [Function.comp_apply]
    split <;> rfl

/-! ## 2. What stays at hand -/

theorem owns_withInstr (h : g.Owns c v) (b : BlockId) (place : Nat) (ty : Ty) (origin : Origin)
    (i : Instr) : (g.withInstr b place ty origin i).Owns c v := by
  rw [owns_iff] at h ⊢
  rw [owner?_withInstr, if_neg, h]
  rintro rfl
  rw [owner?_nextValue] at h
  cases h

theorem owns_withPhi (h : g.Owns c v) (b : BlockId) (x : VarId) (ty : Ty) :
    (g.withPhi b x ty).Owns c v := by
  rw [owns_iff] at h ⊢
  rw [owner?_withPhi, if_neg, h]
  rintro rfl
  rw [owner?_nextValue] at h
  cases h

end Graph

end BitFlow
