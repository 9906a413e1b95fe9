import PlaceRoute.Proofs.Graph.Names

/-!
# What ties become

The edges into the copy of a unit are those of the fabric's ties to the unit, from the copies of operand ports in the same context,
whatever becomes of registers and of cycles (`Graph.mem_edges_unit_iff`). Every other tie that does not lead to a mux is an edge in every
context too, unless it joins a register that was taken out (`Graph.exists_edge_of_tie`).
-/

namespace PlaceRoute

variable {f : Fabric} {options : GraphOptions} {contexts context c : Nat} {a a' : Address} {tie : Tie} {e : Element} {i : Instance}
  {p : Placed} {n : Node} {g : Graph} {j u : NodeId}
  {x y : Edge}

namespace Element.Becomes

variable {k : NodeKind}

theorem exists_eq_unit (h : (Element.ofInstance i).Becomes k) (hi : i.kind = .functionalUnit) :
    ∃ operands, k = .functionalUnit i.ops operands := by
  cases h with
  | unit => exact ⟨_, rfl⟩
  | register hregister => exact absurd (hi.symm.trans hregister) nofun

theorem eq_operandPort {p : OperandPort} (h : (Element.ofOperandPort p).Becomes k) : k = .operandPort p.operand := by
  cases h
  rfl

end Element.Becomes

namespace Fabric

theorem number_congr (hlocation : a.location = a'.location) (helement : a.element = a'.element) :
    f.number contexts context a = f.number contexts context a' := by
  unfold number
  rw [hlocation, helement]

/-- The edges of ties, one for each tie in each context. -/
theorem mem_edges : y ∈ f.edges contexts ↔ ∃ c < contexts, ∃ tie ∈ f.ties, y = f.edgeOf contexts c tie := by
  unfold edges
  simp only [List.mem_flatMap, List.mem_range, List.mem_map, eq_comm (a := y)]

/-- What does not come from a register arrives at once. -/
theorem arrival_eq (he : f.resolve tie.src = some e) (hregister : e.isRegister = false) : f.arrival contexts c tie = c := by
  unfold arrival
  rw [he, Option.any_some, hregister]
  rfl

end Fabric

namespace Graph
namespace Draft
namespace Stages

variable {full base d : Draft} {cut : List Edge} (h : Stages f options full base d cut)
include h

/-- Breaking cycles leaves the edges to nodes other than muxes. -/
theorem has_iff_of_ne_mux (hlt : y.dst < base.slots.size) (hmux : base.kind? y.dst ≠ some .mux) : d.Has y ↔ base.Has y := by
  have hs := h.named.splits
  rw [hs.has]
  constructor
  · rintro (⟨hy, -⟩ | ⟨k, z, hz, rfl | rfl⟩)
    · exact hy
    · exact absurd hlt (Nat.not_lt.mpr (Nat.le_add_right _ _))
    · exact absurd (hs.joins z (List.mem_of_getElem? hz)).2.2 hmux
  · intro hy
    exact Or.inl ⟨hy, fun hcut => hmux (hs.joins y hcut).2.2⟩

/-- No step changes the edges into units. -/
theorem has_iff_of_unit {ops : SortedSet String} {operands : SortedMap Nat NodeId}
    (hunit : full.kind? y.dst = some (.functionalUnit ops operands)) : d.Has y ↔ full.Has y := by
  have hkind : base.kind? y.dst = some (.functionalUnit ops operands) := by
    rw [kind?_eq_of_bare? (h.bare?_base.trans (if_neg ?_)), hunit]
    rintro ⟨-, hregister⟩
    rw [hunit] at hregister
    cases hregister
  rw [h.has_iff_of_ne_mux (kind?_lt hkind) (by rw [hkind]; nofun)]
  have helided := h.elided
  split at helided
  · exact has_elideRegisters_of_unit h.full_sound helided hunit
  · cases helided
    rfl

/-- An edge stays when registers are kept or it joins other nodes. -/
theorem has_base (hkept : ¬(options.contexts = 1 ∧ options.registers = .elide) ∨
    full.kind? y.src ≠ some .register ∧ full.kind? y.dst ≠ some .register) (hy : full.Has y) : base.Has y := by
  have helided := h.elided
  split at helided
  · next hcond =>
    obtain ⟨hsrc, hdst⟩ := hkept.resolve_left (not_not.mpr hcond)
    exact hy.elideRegisters h.full_sound hsrc hdst helided
  · cases helided
    exact hy

/-- The copy of an element that is no register is no register. -/
theorem kind?_ne_register (hcontext : context < options.contexts) (ha : f.resolve a = some e) (he : e.isRegister = false) :
    full.kind? (f.number options.contexts context a) ≠ some .register := by
  obtain ⟨n, hn, hcopy⟩ := h.holds.node (Fabric.getElem?_number h.holds.nodup hcontext ha)
  intro hkind
  rw [kind?_of_node? hn] at hkind
  have hregister := hcopy.kind.isRegister_eq
  rw [he, Node.isRegister, Option.some.inj hkind] at hregister
  cases hregister

/-- The copy of a unit is a unit. -/
theorem exists_kind?_unit (hcontext : context < options.contexts) (ha : f.resolve a = some (.ofInstance i))
    (hi : i.kind = .functionalUnit) :
    ∃ operands, full.kind? (f.number options.contexts context a) = some (.functionalUnit i.ops operands) := by
  obtain ⟨n, hn, hcopy⟩ := h.holds.node (Fabric.getElem?_number h.holds.nodup hcontext ha)
  obtain ⟨operands, hkind⟩ := hcopy.kind.exists_eq_unit hi
  exact ⟨operands, by rw [kind?_of_node? hn, hkind]⟩

section
variable (hg : d.finish options.contexts = .ok g)
include hg

/-- A copy is at the place of the element. -/
theorem exists_place_of_copy (hj : g.node? j = some n) (hcopy : n.IsCopy p) :
    ∃ i q, d.ids[j]? = some i ∧ (f.copies options.contexts)[i]? = some q ∧ q.copy = p.copy := by
  rcases h.node_cases hg hj with ⟨i, q, hid, -, hq, hcopy'⟩ | ⟨-, -, -, -, htie, -⟩
  · exact ⟨i, q, hid, hq, hcopy'.copy_eq hcopy rfl⟩
  · have hkind := hcopy.kind.isTie_eq_false
    rw [Node.isTie_iff.mpr htie] at hkind
    cases hkind

theorem context_lt_of_copy (hj : g.node? j = some n) (hcopy : n.IsCopy p) : p.context < options.contexts := by
  obtain ⟨i, q, -, hq, heq⟩ := h.exists_place_of_copy hg hj hcopy
  have hcontext : q.context = p.context := congrArg Copy.context heq
  exact hcontext ▸ (Fabric.mem_copies.mp (List.mem_of_getElem? hq)).1

/-- Where the node is that is the copy of what an address names. -/
theorem getElem?_ids_of_copy (ha : f.resolve a = some e) (hj : g.node? j = some n) (hcopy : n.IsCopy ⟨context, a.location, e⟩) :
    d.ids[j]? = some (f.number options.contexts context a) := by
  obtain ⟨i, q, hid, hq, heq⟩ := h.exists_place_of_copy hg hj hcopy
  rw [hid, h.eq_of_copy hq (Fabric.getElem?_number h.holds.nodup (h.context_lt_of_copy hg hj hcopy) ha) heq]

/-- The node at the place of what an address names is its copy. -/
theorem isCopy_of_getElem?_ids (hcontext : context < options.contexts) (ha : f.resolve a = some e)
    (hkept : ¬(options.contexts = 1 ∧ options.registers = .elide) ∨ e.isRegister = false)
    (hid : d.ids[j]? = some (f.number options.contexts context a)) : ∃ n, g.node? j = some n ∧ n.IsCopy ⟨context, a.location, e⟩ := by
  obtain ⟨i, n, hi, hn, hcopy⟩ := h.exists_copy hg (Fabric.getElem?_number h.holds.nodup hcontext ha) hkept
  obtain rfl : i = j := eq_of_getElem?_ids h.sound hi hid
  exact ⟨n, hn, hcopy⟩

end
end Stages
end Draft

/-! ## Edges of a graph -/

theorem mem_edges_finish {d : Draft} (hd : d.Sound) (hg : d.finish contexts = .ok g) :
    x ∈ g.edges ↔ ∃ y, d.Has y ∧ Draft.Numbers d.ids y x := by
  rw [(Draft.wellWired_finish hd hg).mem_edges, Draft.sends_finish hd hg]

section
variable (hf : f.validate = .ok ()) (hg : build f options = .ok g)
include hf hg

theorem context_lt_of_copy (hj : g.node? j = some n) (hcopy : n.IsCopy p) : p.context < options.contexts := by
  obtain ⟨full, base, d, cut, hs, hfinish⟩ := Draft.exists_stages (Fabric.wellFormed_of_validate hf) hg
  exact hs.context_lt_of_copy hfinish hj hcopy

/-- An element that is no register has a copy in each context. -/
theorem exists_copy_of_build (hcontext : context < options.contexts) (ha : f.resolve a = some e)
    (hkept : ¬(options.contexts = 1 ∧ options.registers = .elide) ∨ e.isRegister = false) :
    ∃ j n, g.node? j = some n ∧ n.IsCopy ⟨context, a.location, e⟩ := by
  obtain ⟨full, base, d, cut, hs, hfinish⟩ := Draft.exists_stages (Fabric.wellFormed_of_validate hf) hg
  obtain ⟨j, n, -, hn, hcopy⟩ := hs.exists_copy hfinish (Fabric.getElem?_number hs.holds.nodup hcontext ha) hkept
  exact ⟨j, n, hn, hcopy⟩

/-- The edges into a copy of a unit are those of the ties to the unit, in the same context. -/
theorem mem_edges_unit_iff (ha : f.resolve a = some (.ofInstance i)) (hi : i.kind = .functionalUnit)
    (hu : g.node? u = some n) (hcopy : n.IsCopy ⟨context, a.location, .ofInstance i⟩) :
    x ∈ g.edges ∧ x.dst = u ↔ ∃ tie ∈ f.ties, tie.dst.location = a.location ∧ tie.dst.element = a.element ∧
      (∃ p q, f.resolve tie.src = some (.ofOperandPort p) ∧ g.node? x.src = some q ∧
        q.IsCopy ⟨context, tie.src.location, .ofOperandPort p⟩) ∧
      x.srcPort = tie.src.port ∧ x.dst = u ∧ x.dstPort = tie.dst.port := by
  have hwell := Fabric.wellFormed_of_validate hf
  obtain ⟨full, base, d, cut, hs, hfinish⟩ := Draft.exists_stages hwell hg
  have hcontext := hs.context_lt_of_copy hfinish hu hcopy
  have hplace := hs.getElem?_ids_of_copy hfinish ha hu hcopy
  obtain ⟨operands, hunit⟩ := hs.exists_kind?_unit hcontext ha hi
  rw [mem_edges_finish hs.sound hfinish]
  constructor
  · rintro ⟨⟨y, hy, hsrc, hsrcPort, hdst, hdstPort⟩, rfl⟩
    have hydst : y.dst = f.number options.contexts context a := Option.some.inj (hdst.symm.trans hplace)
    have hy := hs.carries.has.mp ((hs.has_iff_of_unit (hydst ▸ hunit)).mp hy)
    obtain ⟨c, hc, tie, htie, rfl⟩ := Fabric.mem_edges.mp hy
    obtain ⟨target, htarget, -⟩ := (hwell.fits tie htie).target
    obtain ⟨harrival, hlocation, helement, rfl⟩ := hwell.eq_of_number (Fabric.arrival_lt hc) hcontext htarget ha hydst
    obtain ⟨p, hp⟩ := (hwell.fits tie htie).unit i htarget hi
    obtain rfl : c = context := (Fabric.arrival_eq hp rfl).symm.trans harrival
    obtain ⟨q, hq, hqcopy⟩ := hs.isCopy_of_getElem?_ids hfinish hc hp (Or.inr rfl) hsrc
    exact ⟨tie, htie, hlocation, helement, ⟨p, q, hp, hq, hqcopy⟩, hsrcPort, rfl, hdstPort⟩
  · rintro ⟨tie, htie, hlocation, helement, ⟨p, q, hp, hq, hqcopy⟩, hsrcPort, rfl, hdstPort⟩
    have hdst : (f.edgeOf options.contexts context tie).dst = f.number options.contexts context a := by
      show f.number _ (f.arrival _ _ _) _ = _
      rw [Fabric.arrival_eq hp rfl, Fabric.number_congr hlocation helement]
    have hfull : full.Has (f.edgeOf options.contexts context tie) :=
      hs.carries.has.mpr (Fabric.mem_edges.mpr ⟨context, hcontext, tie, htie, rfl⟩)
    refine ⟨⟨_, (hs.has_iff_of_unit (hdst ▸ hunit)).mpr hfull, ?_, hsrcPort, hdst ▸ hplace, hdstPort⟩, rfl⟩
    exact hs.getElem?_ids_of_copy hfinish hp hq hqcopy

/-- A tie that does not lead to a mux is an edge in every context when registers are kept or it joins other elements. -/
theorem exists_edge_of_tie {source target : Element}
    (hkept : ¬(options.contexts = 1 ∧ options.registers = .elide) ∨ source.isRegister = false ∧ target.isRegister = false)
    (htie : tie ∈ f.ties) (hcontext : context < options.contexts) (hsource : f.resolve tie.src = some source)
    (htarget : f.resolve tie.dst = some target) (hmux : ∀ m, target ≠ .ofMux m) : ∃ x ∈ g.edges,
      (∃ s, g.node? x.src = some s ∧ s.IsCopy ⟨context, tie.src.location, source⟩) ∧ x.srcPort = tie.src.port ∧
      (∃ t, g.node? x.dst = some t ∧ t.IsCopy ⟨f.arrival options.contexts context tie, tie.dst.location, target⟩) ∧
      x.dstPort = tie.dst.port := by
  obtain ⟨full, base, d, cut, hs, hfinish⟩ := Draft.exists_stages (Fabric.wellFormed_of_validate hf) hg
  have harrival : f.arrival options.contexts context tie < options.contexts := Fabric.arrival_lt hcontext
  let y := f.edgeOf options.contexts context tie
  have hfull : full.Has y := hs.carries.has.mpr (Fabric.mem_edges.mpr ⟨context, hcontext, tie, htie, rfl⟩)
  have hy : base.Has y := hs.has_base (hkept.imp_right fun ⟨hsrc, hdst⟩ =>
    ⟨hs.kind?_ne_register hcontext hsource hsrc, hs.kind?_ne_register harrival htarget hdst⟩) hfull
  have hne : base.kind? y.dst ≠ some .mux := by
    intro hk
    obtain ⟨m, p, mux, -, hp, -, hm⟩ := hs.exists_mux hk
    have hplaced := Fabric.getElem?_number hs.holds.nodup harrival htarget
    rw [Option.some.inj (hp.symm.trans hplaced)] at hm
    exact hmux mux hm
  obtain ⟨-, m, hm⟩ := hs.base_sound.ends hy
  have hd := (hs.has_iff_of_ne_mux (Draft.node?_lt hm) hne).mpr hy
  obtain ⟨hsrc, hsrcPort, hdst, hdstPort⟩ := (Draft.numbers_iff hs.sound hd).mpr rfl
  exact ⟨d.numbered y, (mem_edges_finish hs.sound hfinish).mpr ⟨y, hd, hsrc, hsrcPort, hdst, hdstPort⟩,
    hs.isCopy_of_getElem?_ids hfinish hcontext hsource (hkept.imp_right And.left) hsrc, hsrcPort,
    hs.isCopy_of_getElem?_ids hfinish harrival htarget (hkept.imp_right And.right) hdst, hdstPort⟩

end

end Graph
end PlaceRoute
