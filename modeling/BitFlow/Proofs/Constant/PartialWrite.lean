import BitFlow.Proofs.Constant.Given
import BitFlow.Proofs.Constant.Propagate
import BitFlow.Proofs.Emit.Progress
import BitFlow.Proofs.Intact.Read

/-!
# Writing a part of a variable

A write to some bits of a variable reads the variable, takes the old bits above and below the range,
joins them with the new ones and puts the whole under the type of the variable. Each of the four
operators may be folded, be left out or become an instruction, depending on where the range lies and
on which operands are literals. What is recorded amounts to the same in all these cases: to the old
content with exactly the bits of the range replaced.

Main statement: `Build.write_part` -- the write succeeds, what it records is found by a read, and it
amounts to the old content without the range, and the new bits in their place.
-/

namespace BitFlow

/-! ## 1. The cursor -/

/-- The cursor of a bench lies inside its block. -/
def Bench.Fits (s : Bench) : Prop := Pointed.Fits ⟨s.graph, s.cursor⟩

/-- A read leaves a cursor inside its block: the block may only have more instructions. -/
theorem Graph.Holds.fits {g g' : Graph} (h : g.Holds g') {c : Cursor}
    (hf : Pointed.Fits ⟨g, c⟩) : Pointed.Fits ⟨g', c⟩ := by
  obtain ⟨y, hy, hpos⟩ := hf
  obtain ⟨y', hy', -, hinstrs⟩ := h.block hy
  refine ⟨y', hy', fun n hn => Nat.le_trans (hpos n hn) ?_⟩
  rw [← hinstrs]
  exact List.length_filter_le _ _

/-- What is recorded at a block is found there, and nothing changes. -/
theorem Track.run_read_of_reached {s : Tracked} {x : VarId} {b : BlockId} {o : Operand}
    (h : s.reached x b = some o) : (read x b).run s = .ok o s := by
  obtain ⟨a, ha, rfl⟩ := Option.map_eq_some_iff.1 h
  have hends : Ends (read x b) s (fun _ => False) fun o t => o = s.graph.resolve a ∧ t = s := by
    unfold read
    rw [Ends.bind_iff, Ends.get_iff]
    unfold readWithin
    rw [Ends.bind_iff, Ends.get_iff, show s.reaching.definition? x b = some a from ha]
    exact (ends_resolve _).2 ⟨rfl, rfl⟩
  obtain ⟨_, _, hrun, rfl, rfl⟩ := hends.exists_ok
  exact hrun

/-! ## 2. The parts -/

/-- **Parts that have been joined and put under the type of the whole** amount to the literal with
    the bits of the range replaced. -/
theorem Emit.Converted.amounts_splice {p q u : Pointed} {os : List Operand} {joined whole : Operand}
    {given : Operand → Option Literal} {a c : Literal} {r : BitRange}
    (h : Converted q joined a.ty whole u) (hj : Joined p os joined q) (hr : r.Within a.width)
    (hh : a.ty.holdsLiterals = true) (hc : c.width = r.width) (hg : p.graph.Confines given)
    (types : os.map p.graph.typeOf? = (r.partTypes a.width c.ty).map some)
    (hos : List.Forall₂ (p.graph.Amounts given) os (a.above r ++ c :: a.below r)) :
    u.graph.Amounts given whole (a.splice r c) := by
  obtain ⟨k, hfold, hty, hcast⟩ := fold_parts hr hh hc
  have htotal := totalWidth_parts hr hc
  have hsum := r.widthSum_partTypes hr hc
  have hword : a.width ≤ wordMax := ((Ty.holdsLiterals_iff _).1 hh).2.trans (by decide)
  have htype := hj.typeOf? types (by rw [hsum]; exact hword)
  rw [hsum, ← hty] at htype
  refine h.amounts (hj.grown.confines hg) (hj.amounts hg hos ?_ ?_ ?_) htype hcast
  · rw [map_ty_parts]
    exact types
  · rw [htotal]
    exact hword
  · rw [htotal]
    exact hfold

namespace Build

variable {s : Bench} {site : String}

/-- **The old bits next to a range**, where there are some: they are emitted, and amount to those of
    the old content. -/
theorem fits_sliceIf (q : Prop) [Decidable q] {a : Operand} {ty : Ty} {msb lsb : Nat} (h : s.Fits)
    (ha : s.graph.typeOf? a = some ty) (hin : q → lsb ≤ msb ∧ msb < ty.width) :
    Ends (sliceIf q a msb lsb site) s (fun _ => False) fun os t =>
      t.Fits ∧ s.graph.Grown t.graph ∧
        os.map t.graph.typeOf? = (if q then [Ty.unsigned (msb - lsb + 1)] else []).map some ∧
        ∀ given k, ty.holdsLiterals = true → s.graph.Confines given → s.graph.Amounts given a k →
          k.ty = ty → List.Forall₂ (t.graph.Amounts given) os (if q then [k.slice msb lsb] else []) := by
  unfold sliceIf
  split
  · rename_i hq
    obtain ⟨hl, hm⟩ := hin hq
    rw [Ends.bind_iff, ends_emit]
    refine (Emit.fits_slice h ha hl hm).mono fun o t ⟨hfits, hsliced⟩ => ?_
    refine ⟨hfits, hsliced.grown, congrArg (fun t => [t]) hsliced.typeOf?,
      fun given k hh hg hk hty => ?_⟩
    subst hty
    exact .cons (hsliced.amounts hg hk ha hh) .nil
  · exact ⟨h, .refl _, rfl, fun _ _ _ _ _ _ => .nil⟩

/-- **The old content with one part replaced** is put together without a fault wherever the cursor
    lies inside its block, and amounts to that. -/
theorem fits_assemble {d : Variable} {r : BitRange} {o old : Operand} {ty : Ty} (hfits : s.Fits)
    (hr : r.Within d.ty.width) (hty : s.graph.typeOf? o = some ty) (hwidth : ty.width = r.width)
    (hold : s.graph.typeOf? old = some d.ty) :
    Ends (assemble d r old o site) s (fun _ => False) fun whole s' =>
      ∀ given a c, d.ty.holdsLiterals = true → s.graph.Confines given →
        s.graph.Amounts given old a → a.ty = d.ty → s.graph.Amounts given o c → c.ty = ty →
          s'.graph.Amounts given whole (a.splice r c) := by
  have hl : r.lsb ≤ r.msb := hr.1
  have hm : r.msb < d.ty.width := hr.2
  have hsum := r.widthSum_partTypes hr hwidth
  unfold assemble
  -- the parts
  rw [Ends.bind_iff]
  refine (fits_sliceIf _ hfits hold fun _ => ⟨by omega, by omega⟩).mono
    fun above s₁ ⟨hfits₁, hgrown₁, htypes₁, habove⟩ => ?_
  rw [Ends.bind_iff]
  refine (fits_sliceIf _ hfits₁ (hgrown₁.types _ _ hold) fun _ => ⟨by omega, by omega⟩).mono
    fun below s₂ ⟨hfits₂, hgrown₂, htypes₂, hbelow⟩ => ?_
  have hgrown : s.graph.Grown s₂.graph := hgrown₁.trans hgrown₂
  have htypes : (above ++ o :: below).map s₂.graph.typeOf? =
      (r.partTypes d.ty.width ty).map some := by
    rw [List.map_append, List.map_cons, hgrown₂.types.map htypes₁, htypes₂,
      hgrown.types _ _ hty, ← List.map_cons, ← List.map_append]
    rfl
  -- the whole
  rw [Ends.bind_iff, ends_emit]
  refine (Emit.fits_concat hfits₂ htypes (by simp)).mono fun joined q ⟨hfitsq, hjoined⟩ => ?_
  obtain ⟨t, htype⟩ := hjoined.typed
  rw [Ends.bind_iff, ends_emit]
  refine (Emit.fits_cast hfitsq htype (by omega)).mono fun whole q' ⟨_, hwhole⟩ => ?_
  rw [Ends.bind_iff]
  refine (ends_markPartial (Graph.knows_of_typeOf? hwhole.typeOf?)).mono
    fun _ _ ⟨u, hu, hs'⟩ given a c hh hg ha hat hc hct => ?_
  subst hs'
  have hw : a.width = d.ty.width := congrArg Ty.width hat
  have hos : List.Forall₂ (s₂.graph.Amounts given) (above ++ o :: below)
      (a.above r ++ c :: a.below r) := by
    have h₁ := habove given a hh hg ha hat
    have h₂ := hbelow given a hh (hgrown₁.confines hg) (hgrown₁.amounts ha) hat
    unfold Literal.above Literal.below
    rw [hw]
    exact List.rel_append (hgrown₂.amounts_all h₁) (.cons (hgrown.amounts hc) h₂)
  refine hu.graph.grown.amounts ?_
  rw [← hat] at hwhole
  refine hwhole.amounts_splice hjoined ?_ ?_ ?_ (hgrown.confines hg) ?_ hos
  · rw [hw]
    exact hr
  · rw [hat]
    exact hh
  · exact (congrArg Ty.width hct).trans hwidth
  · rw [hw, hct]
    exact htypes

/-- A splice for which everything is there is carried out without a fault. -/
theorem fits_splice {d : Variable} {r : BitRange} {b : BlockId} {o old : Operand} {ty : Ty}
    {t : Tracked} (hs : Idle s.tracked) (hfits : s.Fits) (hcur : s.cursor.block = b)
    (harr : d.isArray = false) (hh : d.ty.holdsLiterals = true) (hr : r.Within d.ty.width)
    (hty : s.graph.typeOf? o = some ty) (hwidth : ty.width = r.width)
    (hread : (Track.read d.id b).run s.tracked = .ok old t)
    (hold : t.graph.typeOf? old = some d.ty) :
    Ends (splice d r b o site) s (fun _ => False) fun whole s' =>
      ∀ given a c, t.graph.Confines given → t.graph.Amounts given old a → a.ty = d.ty →
        s.graph.Amounts given o c → c.ty = ty → s'.graph.Amounts given whole (a.splice r c) := by
  have hheld := Track.holds_of_run hs.sane.steady hread
  rw [splice_eq, if_neg (by rw [harr]; decide), if_neg (not_not.2 hr), Ends.bind_iff, ends_edit]
  refine Edit.ends_typeOf?_some hty ?_
  dsimp only
  rw [if_neg (not_not.2 hwidth), Ends.bind_iff, Ends.get_iff, if_neg (not_not.2 hcur),
    Ends.bind_iff, ends_track, Ends.run_iff hread]
  refine (fits_assemble (s := s.retrack t) (hheld.fits hfits) hr (hheld.grown.types _ _ hty) hwidth
    hold).mono fun whole s' h given a c hg ha hat hc hct => ?_
  exact h given a c hh hg ha hat (hheld.grown.amounts hc) hct

/-! ## 3. The write -/

/-- **A part of a variable is written without a fault**: what is recorded is of the type of the
    variable, stands for itself, and amounts to the old content with that part replaced. -/
theorem fits_write {x : VarId} {d : Variable} {r : BitRange} {b : BlockId}
    {o old : Operand} {ty : Ty} {t : Tracked} (hs : Idle s.tracked) (hfits : s.Fits)
    (hcur : s.cursor.block = b) (hd : variableById? s.reaching.vars x = some d)
    (harr : d.isArray = false) (hh : d.ty.holdsLiterals = true) (hr : r.Within d.ty.width)
    (ho : s.graph.Anchors o) (hty : s.graph.typeOf? o = some ty) (hwidth : ty.width = r.width)
    (hread : (Track.read x b).run s.tracked = .ok old t)
    (hold : t.graph.typeOf? old = some d.ty) :
    Ends (write x [r] b o) s (fun _ => False) fun whole s' =>
      s'.graph.typeOf? whole = some d.ty ∧ s'.tracked.reached x b = some whole ∧
        ∀ given a c, t.graph.Confines given → t.graph.Amounts given old a → a.ty = d.ty →
          s.graph.Amounts given o c → c.ty = ty → s'.graph.Amounts given whole (a.splice r c) := by
  have hdeclared : ∀ {vars}, vars = s.reaching.vars → variableById? vars x ≠ none := by
    rintro _ rfl hn
    cases hd.symm.trans hn
  obtain rfl := id_of_variableById? hd
  unfold write
  rw [Ends.bind_iff, ends_track]
  refine Track.ends_declaration (fun hn => hdeclared rfl hn) fun d' hd' => ?_
  cases hd.symm.trans hd'
  rw [Ends.bind_iff]
  refine ((fits_splice hs hfits hcur harr hh hr hty hwidth hread hold).and
    (moves_splice (p := default) hs ho)).mono fun whole s₁ ⟨hwhole, hmoves, htype, hanchors⟩ => ?_
  rw [Ends.bind_iff, ends_track, Track.ends_onTables, Ends.bind_iff, ends_track]
  refine (Track.ends_nameAfter (s := s₁.tracked.recorded d.id b whole) hanchors.knows
    fun hn => hdeclared (hmoves.vars hs) hn).mono fun _ t' ht => ?_
  refine ⟨(ht.graph.typeOf? whole).trans htype, ?_, fun given a c hg ha hat hc hct =>
    ht.graph.grown.amounts (hwhole given a c hg ha hat hc hct)⟩
  show (t'.reaching.defs.get? (b, d.id)).map t'.graph.resolve = some whole
  rw [ht.defs, show (s₁.tracked.recorded d.id b whole).reaching.defs.get? (b, d.id) = some whole
    from (Reaching.get?_record _ _ _ _ _).trans (if_pos rfl), Option.map_some]
  exact congrArg some ((ht.graph.resolve whole).trans
    ((hmoves.idle hs).sane.steady.resolve_of_anchors hanchors))

/-- What is read is of the declared type. -/
theorem typeOf?_of_read {s t : Tracked} (hi : s.Intact) {x : VarId} {d : Variable}
    (hd : variableById? s.reaching.vars x = some d) {b : BlockId} {y : Block}
    (hb : s.graph.block? b = some y) {old : Operand}
    (hread : (Track.read x b).run s = .ok old t) : t.graph.typeOf? old = some d.ty :=
  (Ends.of_ok (Track.intact_read hi hb hd) hread).2.2

/-- **A partial write replaces exactly the bits of its range.** `x` is a variable of 1 to 128 bits
    that is no array, and the operand `o` is as wide as the range. Where the variable can be read
    and the cursor lies in the block, the write succeeds, with an operand of the type of the
    variable, and a read that follows answers with it.

    Whatever literals are given for opaque operands: if the old content amounts to `a` and `o` to
    `c`, then that operand amounts to `a` without the bits of the range, and `c` in their place. Its
    slices are the old bits above the range, the new bits, and the old bits below. -/
theorem write_part {s : Bench} {t : Tracked} {x : VarId} {d : Variable}
    {r : BitRange} {b : BlockId} {o old : Operand} {ty : Ty} (hs : Idle s.tracked)
    (hi : s.tracked.Intact) (hd : variableById? s.reaching.vars x = some d)
    (harr : d.isArray = false) (hh : d.ty.holdsLiterals = true) (hr : r.Within d.ty.width)
    (ho : s.graph.Anchors o) (hty : s.graph.typeOf? o = some ty) (hwidth : ty.width = r.width)
    (hcur : s.cursor.block = b) (hfits : s.Fits)
    (hread : (Track.read x b).run s.tracked = .ok old t) :
    ∃ whole s', (write x [r] b o).run s = .ok whole s' ∧ s'.graph.typeOf? whole = some d.ty ∧
      (Track.read x b).run s'.tracked = .ok whole s'.tracked ∧
      ∀ given a c, t.graph.Confines given → t.graph.Amounts given old a → a.ty = d.ty →
        s.graph.Amounts given o c → c.ty = ty →
        ∃ k, s'.graph.Amounts given whole k ∧ k.ty = d.ty ∧
          k.bits = Nat.ldiff a.bits r.field ||| c.bits <<< r.lsb ∧
          k.above r = a.above r ∧ (k.slice r.msb r.lsb).bits = c.bits ∧ k.below r = a.below r := by
  obtain ⟨y, hy, hpos⟩ := hfits
  have hold := typeOf?_of_read hi hd (hcur ▸ hy) hread
  obtain ⟨whole, s', hrun, htype, hreached, hwhole⟩ := (fits_write hs ⟨y, hy, hpos⟩ hcur hd harr hh
    hr ho hty hwidth hread hold).exists_ok
  refine ⟨whole, s', hrun, htype, Track.run_read_of_reached hreached,
    fun given a c hg ha hat hc hct => ?_⟩
  -- the new bits fit into the range
  have hlt : c.bits < 2 ^ r.width := by
    have hle : r.width ≤ d.ty.width := by
      have := hr.1
      have := hr.2
      unfold BitRange.width
      omega
    have hc' : c.ty.holdsLiterals = true := by
      rw [hct]
      exact (Ty.holdsLiterals_iff ty).2 (hwidth ▸ (Ty.holdsLiterals_iff _).1
        (Ty.holdsLiterals_unsigned hh (Nat.le_add_left _ _) hle))
    have := Literal.bits_lt_two_pow hc'
    rwa [show c.width = r.width from (congrArg Ty.width hct).trans hwidth] at this
  rw [← hat] at hr hh
  exact ⟨a.splice r c, hwhole given a c hg ha hat hc hct, hat, Literal.bits_splice hr hh hlt,
    Literal.above_splice hr hh hlt, Literal.bits_slice_splice hr hh hlt,
    Literal.below_splice hr hh hlt⟩

/-- The datum that is read is `10100101`. -/
def alternating (o : Operand) : Option Literal :=
  if o = .value ⟨0⟩ then some (.ofNat 0b10100101 (.unsigned 8)) else none

/-- The bits from 2 up to 5 of an 8-bit datum are replaced by a signed literal of 4 bits: two slices
    and a concatenation are left, and `10100101` becomes `10011001`. -/
theorem write_part_received :
    ∃ whole s', (write ⟨0⟩ [⟨5, 2⟩] ⟨0⟩ (.lit (.ofNat 0b0110 ⟨4, true⟩))).run
        (received (.value ⟨0⟩)) = .ok whole s' ∧
      s'.graph.typeOf? whole = some (.unsigned 8) ∧
      (Track.read ⟨0⟩ ⟨0⟩).run s'.tracked = .ok whole s'.tracked ∧
      ∃ k, s'.graph.Amounts alternating whole k ∧ k.bits = 0b10011001 := by
  have hreceived : (received (.value ⟨0⟩)).Consistent :=
    consistent_received rfl fun w hw => by
      cases hw
      exact ⟨_, rfl, rfl⟩
  obtain ⟨whole, s', hrun, htype, hread, hwhole⟩ :=
    write_part (d := ⟨⟨0⟩, "x", .unsigned 8, []⟩) (r := ⟨5, 2⟩) hreceived.idle hreceived.intact
      rfl rfl rfl (by decide) (Graph.anchors_lit _ (.ofNat 0b0110 ⟨4, true⟩)) rfl rfl rfl
      ⟨_, rfl, fun n hn => by cases hn⟩
      (Track.run_read_of_reached (x := ⟨0⟩) (o := .value ⟨0⟩) rfl)
  have hconfines : (received (.value ⟨0⟩)).graph.Confines alternating := by
    intro v hv
    refine if_neg fun e => ?_
    cases e
    exact Nat.not_succ_le_zero 0 hv
  obtain ⟨k, hk, -, hbits, -⟩ := hwhole alternating (.ofNat 0b10100101 (.unsigned 8))
    (.ofNat 0b0110 ⟨4, true⟩) hconfines ⟨0, rfl⟩ rfl (Graph.amounts_lit _) rfl
  refine ⟨whole, s', hrun, htype, hread, k, hk, hbits.trans ?_⟩
  decide +kernel

end Build

end BitFlow
