import BitFlow.Proofs.Graph.Grow
import BitFlow.Proofs.Reaching.Kept

/-!
# Where the answer of a read comes from

A read looks for a definition by walking back from block to block. The blocks between are those at
whose end nothing is recorded; a walk is over where something is recorded, or at a block whose
predecessors are not known yet. While variables are read new phis come and go, but each answer stays
tied to the walks in the state before: an answer that was there before is what all walks end with,
and one that is a new phi stands in a block that all walks pass.

So an answer that is no new phi depends only on what was recorded before.

Main statements: `Step.traced` -- every step of a read keeps the ties; `Backed.unique` -- two
answers that are no phis are the same.
-/

namespace BitFlow

/-! ## 1. Walks -/

/-- **The walks back in search of `x`**: the blocks that are passed, and what is recorded where the
    walk is over, if its last block is sealed. -/
inductive Tracked.Walk (s : Tracked) (x : VarId) : List BlockId → Option Operand → Prop where
  | found {b : BlockId} {o : Operand} (h : s.reached x b = some o) : Walk s x [b] (some o)
  | stuck {b : BlockId} (hn : s.reaching.defs.get? (b, x) = none)
      (hs : s.graph.isSealed b = false) : Walk s x [b] none
  | back {b q : BlockId} {π : List BlockId} {e : Option Operand}
      (hn : s.reaching.defs.get? (b, x) = none) (hs : s.graph.isSealed b = true)
      (hq : q ∈ s.graph.preds b) (h : Walk s x (q :: π) e) : Walk s x (b :: q :: π) e

/-- Some walk starts at the block. -/
def Tracked.Starts (s : Tracked) (x : VarId) (b : BlockId) : Prop :=
  ∃ π e, s.Walk x (b :: π) e

/-- From a sealed block without a record every walk goes on to a predecessor. -/
theorem Tracked.Walk.tail {s : Tracked} {x : VarId} {b : BlockId} {π : List BlockId}
    {e : Option Operand} (h : s.Walk x (b :: π) e) (hn : s.reaching.defs.get? (b, x) = none)
    (hs : s.graph.isSealed b = true) :
    ∃ q π', π = q :: π' ∧ q ∈ s.graph.preds b ∧ s.Walk x (q :: π') e := by
  cases h with
  | found ho =>
    unfold Tracked.reached at ho
    rw [hn] at ho
    cases ho
  | stuck _ hs' =>
    rw [hs] at hs'
    cases hs'
  | back _ _ hq h => exact ⟨_, _, rfl, hq, h⟩

/-! ## 2. Answers tied to walks -/

/-- **The answer `o` for `x` at `b` is tied to the walks in `s₀`**: it was there before and is what
    all walks end with, or it is a new phi in a block that all walks pass. -/
inductive Backed (s₀ s : Tracked) (x : VarId) (b : BlockId) (o : Operand) : Prop where
  | old (known : s₀.graph.Knows o) (ends : ∀ {π e}, s₀.Walk x (b :: π) e → e = some o)
      (starts : (∀ ty, o ≠ .undef ty) → s₀.Starts x b)
  | phi {v : ValueId} {p : OwnedPhi} (value : o = .value v)
      (new : s₀.graph.values.size ≤ v.index) (phi : s.graph.phi? v = some p) (var : p.var = x)
      (passes : ∀ {π e}, s₀.Walk x (b :: π) e → p.block ∈ b :: π)
      (starts : s₀.Starts x p.block → s₀.Starts x b)

/-- **Two answers that are no phis and not undefined are the same**, if the walks are. -/
theorem Backed.unique {s₀ s s₀' s' : Tracked} {x : VarId} {b : BlockId} {o o' : Operand}
    (h : Backed s₀ s x b o) (h' : Backed s₀' s' x b o')
    (hwalk : ∀ π e, s₀.Walk x π e → s₀'.Walk x π e)
    (hphi : ∀ v, o = .value v → s.graph.phi? v = none)
    (hphi' : ∀ v, o' = .value v → s'.graph.phi? v = none) (hdef : ∀ ty, o ≠ .undef ty) :
    s₀.graph.Knows o ∧ o = o' := by
  cases h with
  | phi value _ phi _ _ _ =>
    rw [hphi _ value] at phi
    cases phi
  | old known ends starts =>
    cases h' with
    | phi value _ phi _ _ _ =>
      rw [hphi' _ value] at phi
      cases phi
    | old _ ends' _ =>
      obtain ⟨π, e, hw⟩ := starts hdef
      exact ⟨known, Option.some.inj ((ends hw).symm.trans (ends' (hwalk _ _ hw)))⟩

/-- **All that is recorded, and all operands of new phis, are tied to the walks in `s₀`.** -/
structure Traced (s₀ s : Tracked) : Prop where
  size : s₀.graph.values.size ≤ s.graph.values.size
  preds : ∀ b, s.graph.preds b = s₀.graph.preds b
  isSealed : ∀ b, s.graph.isSealed b = s₀.graph.isSealed b
  unrecorded : ∀ {b x}, s.reaching.defs.get? (b, x) = none → s₀.reaching.defs.get? (b, x) = none
  fresh : ∀ {v p}, s.graph.phi? v = some p → s₀.graph.values.size ≤ v.index →
    s₀.reaching.defs.get? (p.block, p.var) = none
  defs : ∀ {b x o}, s.reached x b = some o → Backed s₀ s x b o
  incoming : ∀ {v p o q}, s.graph.phi? v = some p → s₀.graph.values.size ≤ v.index →
    (o, q) ∈ p.incoming → Backed s₀ s p.var q o

variable {s₀ s t : Tracked} {x : VarId} {b : BlockId} {o : Operand}

/-- A tie stays where phis keep their block and their variable. -/
theorem Backed.mono (h : Backed s₀ s x b o)
    (hphi : ∀ {v p}, s.graph.phi? v = some p →
      ∃ p', t.graph.phi? v = some p' ∧ p'.block = p.block ∧ p'.var = p.var) :
    Backed s₀ t x b o := by
  cases h with
  | old known ends starts => exact .old known ends starts
  | phi value new phi var passes starts =>
    obtain ⟨p', hp', hb, hv⟩ := hphi phi
    refine .phi value new hp' (hv.trans var) (fun hw => ?_) fun hw => ?_
    · rw [hb]
      exact passes hw
    · rw [hb] at hw
      exact starts hw

/-- In the state itself every record is what its walk ends with. -/
theorem Traced.refl (hs : Sane none s) : Traced s s where
  size := Nat.le_refl _
  preds := fun _ => rfl
  isSealed := fun _ => rfl
  unrecorded := id
  fresh := fun hp hv => absurd (Graph.attached_of_phi? hp).index_lt (Nat.not_lt_of_le hv)
  defs := fun {b x o} ho => by
    refine .old (hs.anchors_reached ho).knows (fun {π e} hw => ?_) fun _ => ⟨[], _, .found ho⟩
    have hrec : s.reaching.defs.get? (b, x) ≠ none := by
      intro hn
      unfold Tracked.reached at ho
      rw [hn] at ho
      cases ho
    cases hw with
    | found ho' => exact ho'.symm.trans ho
    | stuck hn _ => exact absurd hn hrec
    | back hn _ _ _ => exact absurd hn hrec
  incoming := fun hp hv _ => absurd (Graph.attached_of_phi? hp).index_lt (Nat.not_lt_of_le hv)

/-! ## 3. Steps without removal -/

namespace Traced

/-- What was recorded before is still the answer. -/
theorem eq_of_reached (h : Traced s₀ s) {a : Operand} (ha : s₀.reached x b = some a)
    (ho : s.reached x b = some o) : o = a := by
  cases h.defs ho with
  | old _ ends _ => exact (Option.some.inj (ends (.found ha))).symm
  | phi _ new phi var passes _ =>
    have hn := h.fresh phi new
    rw [List.mem_singleton.1 (passes (.found ha)), var] at hn
    unfold Tracked.reached at ha
    rw [hn] at ha
    cases ha

/-- A change that removes no phi, told by what is new. -/
theorem grow (h : Traced s₀ s) (hpreds : ∀ b, t.graph.preds b = s.graph.preds b)
    (hsealed : ∀ b, t.graph.isSealed b = s.graph.isSealed b)
    (hsize : s.graph.values.size ≤ t.graph.values.size)
    (hnone : ∀ {b x}, t.reaching.defs.get? (b, x) = none → s.reaching.defs.get? (b, x) = none)
    (hkeep : ∀ {v p}, s.graph.phi? v = some p →
      ∃ p', t.graph.phi? v = some p' ∧ p'.block = p.block ∧ p'.var = p.var)
    (hdefs : ∀ {b x o}, t.reached x b = some o → s.reached x b = some o ∨ Backed s₀ t x b o)
    (hphi : ∀ {v p}, t.graph.phi? v = some p →
      (∃ p₀, s.graph.phi? v = some p₀ ∧ p₀.block = p.block ∧ p₀.var = p.var ∧
        ∀ {o q}, (o, q) ∈ p.incoming → (o, q) ∈ p₀.incoming ∨ Backed s₀ t p.var q o) ∨
      (s.reaching.defs.get? (p.block, p.var) = none ∧ p.incoming = [])) : Traced s₀ t where
  size := Nat.le_trans h.size hsize
  preds := fun b => (hpreds b).trans (h.preds b)
  isSealed := fun b => (hsealed b).trans (h.isSealed b)
  unrecorded := fun hn => h.unrecorded (hnone hn)
  fresh := fun {v p} hp hv => by
    rcases hphi hp with ⟨p₀, hp₀, hb, hx, -⟩ | ⟨hn, -⟩
    · rw [← hb, ← hx]
      exact h.fresh hp₀ hv
    · exact h.unrecorded hn
  defs := fun ho => (hdefs ho).elim (fun ho => (h.defs ho).mono hkeep) id
  incoming := fun {v p o q} hp hv hm => by
    rcases hphi hp with ⟨p₀, hp₀, -, hx, hin⟩ | ⟨-, hnil⟩
    · rcases hin hm with hm | hback
      · rw [← hx]
        exact (h.incoming hp₀ hv hm).mono hkeep
      · exact hback
    · rw [hnil] at hm
      cases hm

/-- A new phi that is recorded in its block. -/
theorem withPhi (h : Traced s₀ s) (ht : t.graph.Steady) {ty : Ty}
    (hn : s.reaching.defs.get? (b, x) = none) (hg : t.graph = s.graph.withPhi b x ty)
    (hd : t.reaching.defs = (s.reaching.record x b (.value s.graph.nextValue)).defs) :
    Traced s₀ t := by
  have hnew : t.graph.phi? s.graph.nextValue = some ⟨b, ty, x, []⟩ := by
    rw [hg, Graph.phi?_withPhi, if_pos rfl]
  have hkeep : ∀ {v p}, s.graph.phi? v = some p → t.graph.phi? v = some p := by
    intro v p hp
    rw [hg, Graph.phi?_withPhi, if_neg (Sane.phi?_ne_next hp), hp]
  have hshape : ∀ c, t.graph.shape c = s.graph.shape c := fun c => by
    rw [hg, Graph.shape_withPhi]
  refine h.grow (fun c => Graph.preds_congr (hshape c)) (fun c => Graph.isSealed_congr (hshape c)) ?_
    (fun {c z} hc => ?_) (fun hp => ⟨_, hkeep hp, rfl, rfl⟩) (fun {c z o} ho => ?_)
    fun {v p} hp => ?_
  · rw [hg, Graph.size_withPhi]
    exact Nat.le_succ _
  · rw [hd, Reaching.get?_record] at hc
    split at hc
    · cases hc
    · exact hc
  · unfold Tracked.reached at ho
    rw [hd, Reaching.get?_record] at ho
    by_cases e : (b, x) = (c, z)
    · obtain ⟨rfl, rfl⟩ := Prod.mk.inj e
      rw [if_pos rfl, Option.map_some,
        ht.forwarding.resolve_of_attached (Graph.attached_of_phi? hnew)] at ho
      refine .inr (.phi (Option.some.inj ho).symm h.size hnew rfl (fun _ => List.mem_cons_self) id)
    · rw [if_neg e, funext (Graph.resolve_congr (show t.graph.forwards = s.graph.forwards by
        rw [hg]; rfl))] at ho
      exact .inl ho
  · rw [hg, Graph.phi?_withPhi] at hp
    split at hp
    · cases hp
      exact .inr ⟨hn, rfl⟩
    · exact .inl ⟨p, hp, rfl, rfl, fun hm => .inl hm⟩

/-- What is found at a block with one predecessor is what is found at that predecessor. -/
theorem through (h : Traced s₀ s) {q : BlockId} (hn : s.reaching.defs.get? (b, x) = none)
    (hs : s.graph.isSealed b = true) (hp : s.graph.preds b = [q]) (ho : Backed s₀ s x q o) :
    Backed s₀ s x b o := by
  have hn₀ := h.unrecorded hn
  rw [h.isSealed] at hs
  rw [h.preds] at hp
  have hback : s₀.Starts x q → s₀.Starts x b := by
    rintro ⟨π, e, hw⟩
    refine ⟨q :: π, e, .back hn₀ hs ?_ hw⟩
    rw [hp]
    exact List.mem_cons_self
  have htail : ∀ {π e}, s₀.Walk x (b :: π) e → ∃ π', π = q :: π' ∧ s₀.Walk x (q :: π') e := by
    intro π e hw
    obtain ⟨q', π', rfl, hq', hw'⟩ := hw.tail hn₀ hs
    rw [hp] at hq'
    cases List.mem_singleton.1 hq'
    exact ⟨π', rfl, hw'⟩
  cases ho with
  | old known ends starts =>
    refine .old known (fun hw => ?_) fun hdef => hback (starts hdef)
    obtain ⟨π', rfl, hw'⟩ := htail hw
    exact ends hw'
  | phi value new phi var passes starts =>
    refine .phi value new phi var (fun hw => ?_) fun hst => hback (starts hst)
    obtain ⟨π', rfl, hw'⟩ := htail hw
    exact List.mem_cons_of_mem _ (passes hw')

/-- What a read finds is tied to the walks. -/
theorem reads (h : Traced s₀ s) (ho : s.Reads x b o) : Backed s₀ s x b o := by
  cases ho with
  | again ho => exact h.defs ho
  | nowhere hn hs hp d _ ho =>
    subst ho
    refine .old (fun _ e => by cases e) (fun hw => ?_) fun hdef => absurd rfl (hdef d.ty)
    rw [h.isSealed] at hs
    obtain ⟨q, π', -, hq, -⟩ := hw.tail (h.unrecorded hn) hs
    rw [← h.preds, hp] at hq
    cases hq
  | through hn hs q hp ho => exact h.through hn hs hp (h.defs ho)

theorem recorded (h : Traced s₀ s) (hs : Sane none s) (ho : s.Reads x b o) :
    Traced s₀ (s.recorded x b o) := by
  have hres := hs.steady.resolve_of_anchors (hs.anchors_reads ho)
  refine h.grow (fun _ => rfl) (fun _ => rfl) (Nat.le_refl _) (fun {c z} hc => ?_)
    (fun hp => ⟨_, hp, rfl, rfl⟩) (fun {c z a} ha => ?_)
    fun hp => .inl ⟨_, hp, rfl, rfl, fun hm => .inl hm⟩
  · change (s.reaching.record x b o).defs.get? (c, z) = none at hc
    rw [Reaching.get?_record] at hc
    split at hc
    · cases hc
    · exact hc
  · change ((s.reaching.record x b o).defs.get? (c, z)).map s.graph.resolve = some a at ha
    rw [Reaching.get?_record] at ha
    by_cases e : (b, x) = (c, z)
    · obtain ⟨rfl, rfl⟩ := Prod.mk.inj e
      rw [if_pos rfl, Option.map_some, hres] at ha
      cases ha
      exact .inr ((h.reads ho).mono fun hp => ⟨_, hp, rfl, rfl⟩)
    · rw [if_neg e] at ha
      exact .inl ha

theorem pushed (h : Traced s₀ s) {v : ValueId} {p : OwnedPhi} {q : BlockId}
    (hp : s.graph.phi? v = some p) (ho : s.reached p.var q = some o) :
    Traced s₀ (s.pushed v p o q) := by
  have hphi := fun w => Graph.phi?_withIncoming hp o q w
  have hkeep : ∀ {w p'}, s.graph.phi? w = some p' → ∃ p'', (s.pushed v p o q).graph.phi? w =
      some p'' ∧ p''.block = p'.block ∧ p''.var = p'.var := by
    intro w p' hp'
    rw [show (s.pushed v p o q).graph.phi? w = _ from hphi w]
    split
    · rename_i e
      subst e
      cases hp.symm.trans hp'
      exact ⟨_, rfl, rfl, rfl⟩
    · exact ⟨p', hp', rfl, rfl⟩
  have hshape := s.graph.shape_withIncoming v ⟨p.var, p.incoming⟩ o q
  refine h.grow (fun c => Graph.preds_congr (hshape c)) (fun c => Graph.isSealed_congr (hshape c))
    (Nat.le_of_eq (s.graph.size_withIncoming v _ o q).symm) id hkeep (fun {c z a} ha => ?_)
    fun {w p'} hp' => .inl ?_
  · unfold Tracked.reached at ha
    rw [funext (Graph.resolve_congr (show (s.pushed v p o q).graph.forwards = s.graph.forwards from
      s.graph.forwards_withIncoming v _ o q))] at ha
    exact .inl ha
  · rw [show (s.pushed v p o q).graph.phi? w = _ from hphi w] at hp'
    split at hp'
    · rename_i e
      subst e
      cases hp'
      refine ⟨p, hp, rfl, rfl, fun hm => ?_⟩
      rcases List.mem_append.1 hm with hm | hm
      · exact .inl hm
      · cases List.mem_singleton.1 hm
        exact .inr ((h.defs ho).mono hkeep)
    · exact ⟨p', hp', rfl, rfl, fun hm => .inl hm⟩

theorem alike (h : Traced s₀ s) (ha : s.Alike t) : Traced s₀ t := by
  refine h.grow (fun c => Graph.preds_congr (ha.graph.shape c))
    (fun c => Graph.isSealed_congr (ha.graph.shape c)) (Nat.le_of_eq ha.graph.size.symm)
    (fun hn => ?_) (fun {v p} hp => ⟨p, (ha.graph.phi? v).trans hp, rfl, rfl⟩)
    (fun {c z a} hc => .inl ?_)
    fun {v p} hp => .inl ⟨p, (ha.graph.phi? v).symm.trans hp, rfl, rfl, fun hm => .inl hm⟩
  · rw [ha.defs] at hn
    exact hn
  · unfold Tracked.reached at hc
    rw [ha.defs, funext ha.graph.resolve] at hc
    exact hc

/-- A new instruction. -/
theorem withInstr (h : Traced s₀ s) {c : BlockId} {place : Nat} {ty : Ty} {origin : Origin}
    {i : Instr} : Traced s₀ { s with graph := s.graph.withInstr c place ty origin i } := by
  refine h.grow (s.graph.preds_withInstr c place ty origin i)
    (s.graph.isSealed_withInstr c place ty origin i) ?_ id
    (fun {v p} hp => ⟨p, (s.graph.phi?_withInstr c place ty origin i v).trans hp, rfl, rfl⟩)
    (fun {b x o} ho => .inl ?_)
    fun {v p} hp => .inl ⟨p, (s.graph.phi?_withInstr c place ty origin i v).symm.trans hp, rfl, rfl,
      fun hm => .inl hm⟩
  · show _ ≤ (s.graph.withInstr c place ty origin i).values.size
    rw [Graph.size_withInstr]
    exact Nat.le_succ _
  · unfold Tracked.reached at ho
    rw [funext (Graph.resolve_congr (s.graph.forwards_withInstr c place ty origin i))] at ho
    exact ho

end Traced

/-! ## 4. Removal -/

namespace Traced

variable {v : ValueId} {p : OwnedPhi}

/-- **A walk that passes the block of a new phi with one operand beside itself has that operand.**
    The walk is cut where it passes the block for the last time; from there it goes to a predecessor
    whose operand cannot be the phi itself. -/
theorem sole (h : Traced s₀ s) (hs : Sane none s) (hv : s₀.graph.values.size ≤ v.index)
    (hp : s.graph.phi? v = some p) (hf : v ∉ s.reaching.filling)
    (hw : ∀ b x, (x, v) ∉ s.reaching.pending.image b)
    (ho : soleOperand (.value v) (.undef p.ty) p.operands = some o)
    {κ : List BlockId} {e : Option Operand} (hwalk : s₀.Walk p.var κ e) (hmem : p.block ∈ κ) :
    ∃ q, q ∈ s₀.graph.preds p.block ∧ Backed s₀ s p.var q o ∧
      ∃ π, s₀.Walk p.var (q :: π) e ∧ ∀ c, c ∈ q :: π → c ∈ κ := by
  obtain ⟨hsources, hclosed⟩ := hs.complete hp hf hw
  have hn := h.fresh hp hv
  have hsealed : s₀.graph.isSealed p.block = true := by
    rw [← h.isSealed]
    exact hclosed.resolve_right fun e => by cases e
  induction hwalk with
  | found hr =>
    cases List.mem_singleton.1 hmem
    unfold Tracked.reached at hr
    rw [hn] at hr
    cases hr
  | stuck _ hopen =>
    cases List.mem_singleton.1 hmem
    rw [hsealed] at hopen
    cases hopen
  | @back b q π e _ _ hq hwalk ih =>
    by_cases hin : p.block ∈ q :: π
    · obtain ⟨q', hq', hback, π', hwalk', hsub⟩ := ih hin
      exact ⟨q', hq', hback, π', hwalk', fun c hc => List.mem_cons_of_mem _ (hsub c hc)⟩
    · obtain rfl := (List.mem_cons.1 hmem).resolve_right hin
      -- the operand for this predecessor
      have hsrc : q ∈ p.sources := by
        rw [hsources, h.preds]
        exact hq
      obtain ⟨⟨a, q'⟩, ha, rfl⟩ := List.mem_map.1 hsrc
      have hback := h.incoming hp hv ha
      refine ⟨q', hq, ?_, π, hwalk, fun c hc => List.mem_cons_of_mem _ hc⟩
      rcases (soleOperand_eq_some ho).1 a (List.mem_map.2 ⟨_, ha, rfl⟩) with rfl | rfl
      · cases hback with
        | old known _ _ => exact absurd (known v rfl) (Nat.not_lt_of_le hv)
        | phi value _ hp' _ passes _ =>
          cases value
          cases hp.symm.trans hp'
          exact absurd (passes hwalk) hin
      · exact hback

/-- What a new phi with one operand beside itself is tied to, that operand is tied to. -/
theorem replace (h : Traced s₀ s) (hs : Sane none s) (hv : s₀.graph.values.size ≤ v.index)
    (hp : s.graph.phi? v = some p) (hf : v ∉ s.reaching.filling)
    (hw : ∀ b x, (x, v) ∉ s.reaching.pending.image b)
    (ho : soleOperand (.value v) (.undef p.ty) p.operands = some o) {a : Operand}
    (ha : Backed s₀ s x b a) : Backed s₀ s x b (Operand.replace (.value v) o a) := by
  by_cases hne : a = .value v
  swap
  · rw [Operand.replace_of_ne hne]
    exact ha
  subst hne
  rw [show Operand.replace (.value v) o (.value v) = o from if_pos rfl]
  cases ha with
  | old known _ _ => exact absurd (known v rfl) (Nat.not_lt_of_le hv)
  | phi value _ hp' hvar passes starts =>
    cases value
    cases hp.symm.trans hp'
    subst hvar
    have hwalks := fun {π e} (hwalk : s₀.Walk p.var (b :: π) e) =>
      h.sole hs hv hp hf hw ho hwalk (passes hwalk)
    have hback : ∀ {q}, q ∈ s₀.graph.preds p.block → s₀.Starts p.var q → s₀.Starts p.var b := by
      rintro q hq ⟨π, e, hwalk⟩
      refine starts ⟨q :: π, e, .back (h.fresh hp hv) ?_ hq hwalk⟩
      rw [← h.isSealed]
      exact (hs.complete hp hf hw).2.resolve_right fun e => by cases e
    rcases (soleOperand_eq_some ho).2 with ⟨hmem, -⟩ | ⟨rfl, -⟩
    · obtain ⟨⟨o', q₀⟩, hin, rfl⟩ := List.mem_map.1 hmem
      have hq₀ : q₀ ∈ s₀.graph.preds p.block := by
        rw [← h.preds, ← (hs.complete hp hf hw).1]
        exact List.mem_map.2 ⟨_, hin, rfl⟩
      cases h.incoming hp hv hin with
      | old known _ starts₀ =>
        refine .old known (fun hwalk => ?_) fun hdef => hback hq₀ (starts₀ hdef)
        obtain ⟨q, -, hq, π', hwalk', -⟩ := hwalks hwalk
        cases hq with
        | old _ ends _ => exact ends hwalk'
        | phi value new _ _ _ _ => exact absurd (known _ value) (Nat.not_lt_of_le new)
      | phi value new hpw hvar _ starts₀ =>
        refine .phi value new hpw hvar (fun hwalk => ?_) fun hst => hback hq₀ (starts₀ hst)
        obtain ⟨q, -, hq, π', hwalk', hsub⟩ := hwalks hwalk
        cases hq with
        | old known _ _ => exact absurd (known _ value) (Nat.not_lt_of_le new)
        | phi value' _ hpw' _ passes' _ =>
          cases value.symm.trans value'
          cases hpw.symm.trans hpw'
          exact hsub _ (passes' hwalk')
    · refine .old (fun _ e => by cases e) (fun hwalk => ?_) fun hdef => absurd rfl (hdef p.ty)
      obtain ⟨q, -, hq, π', hwalk', -⟩ := hwalks hwalk
      cases hq with
      | old _ ends _ => exact ends hwalk'
      | phi value _ _ _ _ _ => cases value

/-- **Retiring a new phi keeps the ties.** -/
theorem retired (h : Traced s₀ s) (hs : Sane none s) (hv : s₀.graph.values.size ≤ v.index)
    (hp : s.graph.phi? v = some p) (hf : v ∉ s.reaching.filling)
    (hw : ∀ b x, (x, v) ∉ s.reaching.pending.image b)
    (ho : soleOperand (.value v) (.undef p.ty) p.operands = some o) {g : Graph}
    (hg : Graph.Retired v o s.graph g) : Traced s₀ ⟨g, s.reaching.reroute v o⟩ := by
  have hs' := hs.retired hp hf hw ho hg
  have hne := (hs.anchors_sole hp ho).2
  have hdefs := Reaching.get?_reroute hs.mirrored v o
  -- no tie leads to `v` any more, so what is left of it does not matter
  have hback : ∀ {x b a}, Backed s₀ s x b a →
      Backed s₀ ⟨g, s.reaching.reroute v o⟩ x b (Operand.replace (.value v) o a) := by
    intro x b a ha
    have hr := h.replace hs hv hp hf hw ho ha
    have hrne : Operand.replace (.value v) o a ≠ .value v := by
      by_cases e : a = .value v
      · rw [e, show Operand.replace (.value v) o (.value v) = o from if_pos rfl]
        exact hne
      · rw [Operand.replace_of_ne e]
        exact e
    cases hr with
    | old known ends starts => exact .old known ends starts
    | @phi u q value new phi var passes starts =>
      have hu : u ≠ v := fun e => hrne (value.trans (congrArg _ e))
      refine .phi value new (p := q.replace (.value v) o) ?_ var passes starts
      rw [show (Tracked.mk g _).graph.phi? u = _ from hg.phi? u, if_neg hu, phi]
      rfl
  refine ⟨Nat.le_trans h.size (Nat.le_of_eq hg.values_size.symm),
    fun c => (Graph.preds_congr (hg.shape c)).trans (h.preds c),
    fun c => (Graph.isSealed_congr (hg.shape c)).trans (h.isSealed c), fun {c z} hn => ?_,
    fun {u q} hq hu => ?_, fun {c z a} ha => ?_, fun {u q a r} hq hu hm => ?_⟩
  · change (s.reaching.reroute v o).defs.get? (c, z) = none at hn
    rw [hdefs, Option.map_eq_none_iff] at hn
    exact h.unrecorded hn
  · change g.phi? u = some q at hq
    rw [hg.phi?] at hq
    split at hq
    · cases hq
    · obtain ⟨q₀, hq₀, rfl⟩ := Option.map_eq_some_iff.1 hq
      have hn := h.fresh hq₀ hu
      exact hn
  · -- what was recorded before, with `o` for `v`
    have hkept : Kept 0 (fun _ => True) s ⟨g, s.reaching.reroute v o⟩ :=
      Step.kept_retired hs (Nat.zero_le _) hp hf hw ho hg
    cases hr : s.reached z c with
    | none =>
      have hn : s.reaching.defs.get? (c, z) = none := Option.map_eq_none_iff.1 hr
      change ((s.reaching.reroute v o).defs.get? (c, z)).map g.resolve = some a at ha
      rw [hdefs, hn] at ha
      cases ha
    | some a₀ =>
      have hanch := hs.anchors_reached hr
      have heq : g.resolve a₀ = Operand.replace (.value v) o a₀ := by
        rw [hg.resolve hs.steady.forwarding hs'.steady.forwarding (Graph.attached_of_phi? hp),
          hs.steady.resolve_of_anchors hanch]
      rw [hkept.reached hr] at ha
      cases ha
      rw [show (Tracked.mk g _).graph.resolve a₀ = _ from heq]
      exact hback (h.defs hr)
  · change g.phi? u = some q at hq
    rw [hg.phi?] at hq
    split at hq
    · cases hq
    · obtain ⟨q₀, hq₀, rfl⟩ := Option.map_eq_some_iff.1 hq
      obtain ⟨a', hm', rfl⟩ := OwnedPhi.mem_incoming_replace.1 hm
      have hin := h.incoming hq₀ hu hm'
      exact hback hin

end Traced

variable {floor : Nat} {scope : VarId → Prop} {new : Option NewPhi} {made : List NewPhi}

/-- **Every step of a read keeps the ties.** -/
theorem Step.traced (hst : Step floor scope none s new t) (hs : Sane none s)
    (hf : s₀.graph.values.size ≤ floor) (h : Traced s₀ s) : Traced s₀ t := by
  have ht := hs.step hst
  cases hst with
  | opened _ _ _ _ _ hn => exact h.withPhi ht.steady hn rfl rfl
  | awaited _ _ _ _ hn => exact h.withPhi ht.steady hn rfl rfl
  | started hc _ _ => cases hc
  | pushed _ _ hp _ ho => exact h.pushed hp ho
  | filled _ _ _ _ =>
    exact ⟨h.size, h.preds, h.isSealed, h.unrecorded, h.fresh,
      fun ho => (h.defs ho).mono fun hp => ⟨_, hp, rfl, rfl⟩,
      fun hp hv hm => (h.incoming hp hv hm).mono fun hp => ⟨_, hp, rfl, rfl⟩⟩
  | retired hv hp hf' hw ho hg => exact h.retired hs (Nat.le_trans hf hv) hp hf' hw ho hg
  | recorded _ ho => exact h.recorded hs ho
  | alike ha => exact h.alike ha

/-- **A read keeps the ties.** -/
theorem Steps.traced (hst : Steps floor scope none s made t) (hs : Sane none s)
    (hf : s₀.graph.values.size ≤ floor) (h : Traced s₀ s) : Traced s₀ t := by
  induction hst with
  | refl s => exact h
  | cons hst _ ih => exact ih (hs.step hst) (hst.traced hs hf h)

end BitFlow
