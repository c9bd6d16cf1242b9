import BitFlow.Proofs.Course.Program

/-!
# The graph of a program is typed

Main statement: `Program.wellTyped_lower` -- in the graph of a program every operand, in whatever
block, has the type that its place asks for.
-/

namespace BitFlow

/-- **A graph that is typed as the program `p` declares.** Attached instructions are applied to what
    their operators ask for; a port access agrees with the port at the place that it names, and it
    alone is an assignment; phis and all their operands are of the declared type of their variable;
    and conditions are truth values. -/
structure Graph.WellTyped (p : Program) (g : Graph) : Prop where
  instrs : ∀ {v i}, g.instr? v = some i →
    ∃ tys, i.instr.operands.map g.typeOf? = tys.map some ∧ i.instr.op.Admits tys i.ty
  ports : ∀ {v i}, g.instr? v = some i → i.instr.op = .assign →
    ∃ u port, i.instr.portUse = some u ∧ p.portAt? u.port = some port ∧ i.ty = port.ty ∧
      match u.access with
      | .read => port.direction = .input ∧ i.instr.operands = []
      | .write => port.direction = .output ∧
          ∃ o, i.instr.operands = [o] ∧ g.typeOf? o = some port.ty
  assigns : ∀ {v i u}, g.instr? v = some i → i.instr.portUse = some u → i.instr.op = .assign
  phis : ∀ {v q}, g.phi? v = some q →
    ∃ d, variableById? p.vars q.var = some d ∧ q.ty = d.ty ∧
      ∀ o ∈ q.operands, g.typeOf? o = some d.ty
  conds : ∀ {b br o}, br ∈ g.branches b → br.cond = some o → g.typeOf? o = some .bit

/-- A typed state of the lowering has a typed graph, if ports are numbered by their places. -/
theorem Typed.wellTyped {p : Program} {t : Tracked} (h : Typed p t) (hs : Idle t)
    (hvars : t.reaching.vars = p.vars)
    (hports : ∀ q port, p.portAt? q = some port → port.id = q) : t.graph.WellTyped p where
  instrs := fun hi => by
    obtain ⟨tys, htys, ha⟩ := h.code hi
    exact ⟨tys, htys, ha.op⟩
  ports := fun {v i} hi hop => by
    obtain ⟨tys, htys, ha⟩ := h.code hi
    obtain ⟨u, hu⟩ := ha.assign hop
    obtain ⟨-, port, hport, hid, hty, hdir⟩ := ha.port hu
    -- the port carries the number of its place
    obtain ⟨n, hn⟩ := List.mem_iff_getElem?.1 hport
    have hplace : p.portAt? u.port = some port := by
      rw [hid, hports ⟨n⟩ port hn]
      exact hn
    refine ⟨u, port, hu, hplace, hty.symm, ?_⟩
    cases hacc : u.access with
    | read =>
      rw [hacc] at hdir
      obtain ⟨hd, rfl⟩ := hdir
      exact ⟨hd, List.map_eq_nil_iff.1 htys⟩
    | write =>
      rw [hacc] at hdir
      obtain ⟨hd, rfl⟩ := hdir
      obtain ⟨o, ho, hto⟩ := List.map_eq_singleton_iff.1 htys
      exact ⟨hd, o, ho, by rw [hto, hty]⟩
  assigns := fun hi hu => by
    obtain ⟨tys, -, ha⟩ := h.code hi
    exact (ha.port hu).1
  phis := fun {v q} hq => by
    obtain ⟨d, hd, hty⟩ := hs.sane.declared hq
    refine ⟨d, hvars ▸ hd, hty.symm, fun o ho => ?_⟩
    rw [hty]
    exact h.phis hq o ho
  conds := h.conds

theorem Typed.start (p : Program) (s : Settings) : Typed p (Lowering.start p s).tracked where
  defs := fun h => by cases h
  phis := fun h => by cases h
  forwards := fun h => by cases h
  code := fun h => by cases h
  conds := fun {b br o} h => by
    obtain ⟨_ | n⟩ := b
    · cases h
    · cases h

/-- **The graph of a program is typed**, in all its blocks. -/
theorem Program.wellTyped_lower {p : Program} {s : Settings} {r : Lowered}
    (hports : ∀ q port, p.portAt? q = some port → port.id = q) (h : p.lower s = .ok r) :
    r.graph.WellTyped p := by
  obtain ⟨b, l, run, rfl⟩ := run_of_lower h
  obtain ⟨t, hm, hl⟩ := Lower.moves_program (.start p s) run
  have hs : Idle t := hm.idle (.start p s)
  have ht := (hm.typed (.start p s) (.start p s)).wellTyped hs (hm.vars (.start p s)) hports
  -- the note where the program ends touches neither values nor branches
  rw [show l.result.graph = { t.graph with exit := some b } from congrArg Tracked.graph hl]
  exact ⟨ht.instrs, ht.ports, ht.assigns, ht.phis, ht.conds⟩

/-- The graph of `doubling` has a phi, at the head of its loop. -/
theorem Program.wellTyped_lower_doubling :
    ∃ r, doubling.lower Preset.fast.settings = .ok r ∧ (r.graph.phi? ⟨1⟩).isSome = true ∧
      r.graph.WellTyped doubling := by
  obtain ⟨r, hr, hphi⟩ := lower_doubling
  refine ⟨r, hr, hphi, wellTyped_lower (fun q port hq => ?_) hr⟩
  obtain ⟨_ | _ | n⟩ := q
  · cases hq
    rfl
  · cases hq
    rfl
  · cases hq

end BitFlow
