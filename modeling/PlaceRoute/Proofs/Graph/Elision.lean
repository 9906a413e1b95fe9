import PlaceRoute.Proofs.Graph.Copies
import PlaceRoute.Proofs.Graph.Elide

/-!
# Graphs without registers

The graph of a fabric without registers is its graph with registers, contracted (`Graph.Contracts`, `Graph.contracts_of_build`): the
nodes are the other nodes with new numbers, and an edge stands for an edge or for a chain of edges over registers. A register
copies an element with one input port, so at most one chain leads to it (`Draft.Holds.singleInput`), and what a register without a
driver feeds is fed by nothing else.
-/

namespace PlaceRoute

/-- Registers have a single input port. -/
def Fabric.RegistersTakeOne (f : Fabric) : Prop :=
  ∀ b ∈ f.blocks, ∀ i ∈ b.instances, i.kind = .register → i.inputPorts.length = 1

instance (f : Fabric) : Decidable f.RegistersTakeOne :=
  inferInstanceAs (Decidable (∀ b ∈ f.blocks, ∀ i ∈ b.instances, i.kind = .register → i.inputPorts.length = 1))

namespace Graph

/-- The numbers of the nodes other than registers, in order. -/
def withoutRegisters (g : Graph) : List NodeId := (g.nodes.toList.filter (!·.isRegister)).map (·.id)

/-- An edge of the graph, or a chain of its edges over one or more registers. -/
def Leads (g : Graph) (e : Edge) : Prop := Spans (· ∈ g.edges) (fun i => g.kind? i = some .register) e

/-- The graph `g` is `g₀` with its registers contracted. -/
structure Contracts (g g₀ : Graph) : Prop where
  /-- The nodes are those of `g₀` that are no registers, with their names, contexts and ports, in their order. -/
  size : g.nodes.size = g₀.withoutRegisters.length
  node : ∀ {i j : NodeId} {n₀ : Node}, g₀.withoutRegisters[j]? = some i → g₀.node? i = some n₀ → ∃ n, g.node? j = some n ∧
    n.shell = { n₀.shell with id := j } ∧ Draft.renumberKind g₀.withoutRegisters n₀.kind = .ok n.kind
  edge : ∀ {x : Edge}, x ∈ g.edges ↔ ∃ e, g₀.Leads e ∧ Draft.Numbers g₀.withoutRegisters e x
  /-- What a register without a driver feeds, perhaps over other registers, has no driver. -/
  undriven : ∀ {e : Edge} {j : NodeId} {n : Node}, g₀.Leads e → g₀.kind? e.src = some .register →
    (∀ x ∈ g₀.edges, x.dst ≠ e.src) → g₀.withoutRegisters[j]? = some e.dst → g.node? j = some n → n.driver? e.dstPort = none

/-! ## Numbers -/

variable {g g₀ : Graph} {i j : NodeId} {n n' : Node} {e x : Edge}

theorem WellWired.ids_increasing (hg : g.WellWired) : g.ids.Pairwise (· < ·) := by
  rw [Graph.ids, map_eq_range_of_index _ fun j n hj => hg.id (by rwa [Graph.node?, ← Array.getElem?_toList])]
  exact List.pairwise_lt_range

theorem WellWired.mem_withoutRegisters (hg : g.WellWired) :
    i ∈ g.withoutRegisters ↔ ∃ k, g.kind? i = some k ∧ k ≠ .register := by
  have hregister {n : Node} : (!n.isRegister) = true ↔ n.kind ≠ .register := by
    unfold Node.isRegister
    cases n.kind <;> simp
  unfold withoutRegisters
  simp only [List.mem_map, List.mem_filter, hregister]
  constructor
  · rintro ⟨n, ⟨hn, hk⟩, rfl⟩
    exact ⟨n.kind, by rw [Graph.kind?, hg.node?_of_mem hn]; rfl, hk⟩
  · rintro ⟨k, hk, hne⟩
    obtain ⟨n, hn, rfl⟩ := Option.map_eq_some_iff.mp hk
    exact ⟨n, ⟨Array.mem_toList_iff.mpr (Array.mem_of_getElem? hn), hne⟩, hg.id hn⟩

namespace Draft

variable {d d' : Draft} {f : Fabric} {contexts m : Nat} {left : List NodeId}

/-- Numbering a node changes nothing but its number and those in its wiring. -/
theorem shell_renumberNode (h : renumberNode left n = .ok n') : n'.shell = { n.shell with id := n'.id } := by
  obtain ⟨hinputs, houtputs, -⟩ := renumberNode_eq_ok h
  obtain ⟨hname, hcontext⟩ := renumberNode_fixes h
  unfold Node.shell
  rw [hname, hcontext, Relation.keys_mapValues hinputs, Relation.keys_mapValues houtputs]

/-- When no node was taken out the nodes of the graph are those of the draft. -/
theorem bare?_of_finish (hd : d.Sound) (hids : d.ids = List.range m) (h : d.finish contexts = .ok g) (i : NodeId) :
    d.bare? i = (g.node? i).map Node.bare := by
  have hplace {j k : NodeId} : d.ids[j]? = some k ↔ j = k ∧ k < m := by rw [hids, getElem?_range_eq_some_iff]
  cases hi : g.node? i with
  | none =>
    refine Option.map_eq_none_iff.mpr (Option.eq_none_iff_forall_ne_some.mpr fun n hn => ?_)
    have hlt : i < m := List.mem_range.mp (hids ▸ (mem_ids hd).mpr ⟨n, hn⟩)
    have hid := hd.id hn
    rw [← hid] at hlt hn
    obtain ⟨n', hn', -⟩ := exists_finish hd h (hplace.mpr ⟨rfl, hlt⟩) hn
    rw [hid, hi] at hn'
    cases hn'
  | some n' =>
    obtain ⟨n, hj, hn, hn'⟩ := (node?_finish hd h).mp hi
    obtain ⟨rfl, -⟩ := hplace.mp hj
    have hshell : n'.shell = n.shell := by
      rw [shell_renumberNode hn', id_finish hd h hi]
      rfl
    have hkind := (renumberNode_eq_ok hn').2.2.1
    rw [hids] at hkind
    rw [bare?, hn, Option.map_some, Option.map_some, Node.bare, Node.bare, hshell, renumberKind_range hkind]

theorem kind?_of_finish (hd : d.Sound) (hids : d.ids = List.range m) (h : d.finish contexts = .ok g) (i : NodeId) :
    d.kind? i = g.kind? i := by
  rw [kind?_eq_map, bare?_of_finish hd hids h, Option.map_map]
  rfl

/-- A copy of a register has a single input port. -/
theorem Holds.singleInput (h : d.Holds (f.copies contexts)) (hf : f.RegistersTakeOne) (hi : d.kind? i = some .register) :
    d.SingleInput i := by
  obtain ⟨n, hn, hkind⟩ := Option.map_eq_some_iff.mp hi
  obtain ⟨p, hp⟩ : ∃ p, (f.copies contexts)[i]? = some p := ⟨_, List.getElem?_eq_getElem (h.size ▸ node?_lt hn)⟩
  obtain ⟨n', hn', hcopy⟩ := h.node hp
  obtain rfl : n = n' := Option.some.inj (hn.symm.trans hn')
  obtain ⟨r, hr, hregister⟩ : ∃ r, p.element = .ofInstance r ∧ r.kind = .register := by
    have hbecomes := hkind ▸ hcopy.kind
    generalize p.element = e at hbecomes
    cases hbecomes with
    | register hk => exact ⟨_, rfl, hk⟩
  obtain ⟨b, hb, hmem⟩ := List.mem_flatMap.mp (Fabric.mem_copies.mp (List.mem_of_getElem? hp)).2
  obtain ⟨e, he, heq⟩ := List.mem_map.mp hmem
  have hinstance : r ∈ b.instances := by
    rw [(Prod.mk.inj heq).2, hr] at he
    simpa [Block.elements] using he
  obtain ⟨port, hport⟩ := List.length_eq_one_iff.mp (hf b hb r hinstance hregister)
  have hinput {q : String} (hq : d.HasInput i q) : q = port := by
    obtain ⟨s, hs, hq⟩ := hq
    rw [shell?_of_node? hn] at hs
    cases hs
    have hkeys : q ∈ n.inputs.keys := hq
    rw [hcopy.inputs, hr, Element.inputPorts, hport] at hkeys
    exact List.mem_singleton.mp (SortedSet.mem_ofList.mp hkeys)
  exact fun q q' hq hq' => (hinput hq).trans (hinput hq').symm

/-! ## A draft without the registers of a graph -/

/-- The draft has the nodes of a graph other than registers, and the edges between them that the graph has or leads over
registers. -/
structure Elides (d : Draft) (g₀ : Graph) : Prop where
  sound : d.Sound
  bare : ∀ i, d.bare? i = if g₀.kind? i = some .register then none else (g₀.node? i).map Node.bare
  has : ∀ {e : Edge}, d.Has e ↔ g₀.kind? e.src ≠ some .register ∧ g₀.kind? e.dst ≠ some .register ∧ g₀.Leads e

namespace Elides

variable (h : d.Elides g₀) (hg₀ : g₀.WellWired)
include h hg₀

theorem ids_eq : d.ids = g₀.withoutRegisters := by
  refine (pairwise_lt_ids h.sound).eq_of_mem_iff (hg₀.ids_increasing.sublist (List.filter_sublist.map _)) fun i => ?_
  rw [mem_ids_iff_kind? h.sound, hg₀.mem_withoutRegisters, kind?_eq_map, h.bare]
  split
  · next hregister =>
    rw [hregister]
    simp
  · next hother =>
    rw [Option.map_map]
    refine exists_congr fun k => (and_iff_left_of_imp ?_).symm
    rintro hk rfl
    exact hother hk

/-- The nodes that are left are no registers. -/
theorem kind?_ne (hj : d.ids[j]? = some i) : g₀.kind? i ≠ some .register := by
  obtain ⟨k, hk, hne⟩ := hg₀.mem_withoutRegisters.mp (h.ids_eq hg₀ ▸ List.mem_of_getElem? hj)
  rw [hk]
  exact fun heq => hne (Option.some.inj heq)

/-- When it is numbered, the nodes of the graph other than registers are there with new numbers. -/
theorem exists_node {n₀ : Node} (hg : d.finish contexts = .ok g) (hj : d.ids[j]? = some i) (hn₀ : g₀.node? i = some n₀) :
    ∃ n, g.node? j = some n ∧ n.shell = { n₀.shell with id := j } ∧ renumberKind d.ids n₀.kind = .ok n.kind := by
  have hsame : d.bare? i = some n₀.bare := by
    rw [h.bare, if_neg (h.kind?_ne hg₀ hj), hn₀]
    rfl
  obtain ⟨m, hm, hmbare⟩ := Option.map_eq_some_iff.mp hsame
  obtain ⟨hkind, hshell⟩ := Prod.mk.inj hmbare
  obtain rfl := h.sound.id hm
  obtain ⟨n, hn, hrenumber⟩ := exists_finish h.sound hg hj hm
  refine ⟨n, hn, ?_, ?_⟩
  · rw [shell_renumberNode hrenumber, hshell, id_finish h.sound hg hn]
  · rw [← hkind]
    exact (renumberNode_eq_ok hrenumber).2.2.1

/-- Its edges are those that the graph leads over registers. -/
theorem mem_edges_iff (hg : d.finish contexts = .ok g) : x ∈ g.edges ↔ ∃ e, g₀.Leads e ∧ Numbers d.ids e x := by
  rw [(wellWired_finish h.sound hg).mem_edges, sends_finish h.sound hg]
  refine exists_congr fun e => and_congr_left fun ⟨hsrc, _, hdst, _⟩ => ?_
  rw [h.has]
  exact ⟨fun hx => hx.2.2, fun hx => ⟨h.kind?_ne hg₀ hsrc, h.kind?_ne hg₀ hdst, hx⟩⟩

omit hg₀ in
/-- An input to which the graph leads from registers only has no driver. -/
theorem driver?_eq_none {port : String} (hg : d.finish contexts = .ok g) (hj : d.ids[j]? = some i) (hn : g.node? j = some n)
    (honly : ∀ x, g₀.Leads x → x.dst = i → x.dstPort = port → g₀.kind? x.src = some .register) : n.driver? port = none := by
  refine List.head?_eq_none_iff.mpr (List.eq_nil_iff_forall_not_mem.mpr fun s hs => ?_)
  obtain ⟨x, hx, -, -, hdst, hport⟩ := (receives_finish h.sound hg (x := ⟨s.node, s.port, j, port⟩)).mp ⟨n, hn, hs⟩
  obtain ⟨hsrc, -, hx⟩ := h.has.mp hx
  exact hsrc (honly x hx (Option.some.inj (hdst.symm.trans hj)) hport.symm)

end Elides

section
variable {base : Draft} (hb : base.Sound) (htidy : base.Tidy) (hsingle : ∀ r, base.kind? r = some .register → base.SingleInput r)
  (hids : base.ids = List.range m) (hg₀ : base.finish contexts = .ok g₀)
include hb htidy hsingle hids hg₀

/-- Taking out the registers of a draft gives what its graph has without them. -/
theorem elides_of_finish (h : base.elideRegisters = .ok d) : d.Elides g₀ := by
  obtain ⟨hbare, hhas⟩ := elideRegisters_eq_ok hb htidy hsingle h
  have hedges : base.Has = (· ∈ g₀.edges) := funext fun x => propext (mem_edges_of_finish hb hids hg₀).symm
  simp only [hedges, kind?_of_finish hb hids hg₀] at hbare hhas
  refine ⟨foldlM_induction Sound hb (fun _ _ _ _ hd h => hd.elideRegister h) h, fun i => ?_, fun {e} => hhas e⟩
  rw [hbare, bare?_of_finish hb hids hg₀]

/-- Only registers lead to what a register without a driver feeds. -/
theorem kind?_src_of_leads (he : g₀.Leads e) (hregister : g₀.kind? e.src = some .register) (hfirst : ∀ x ∈ g₀.edges, x.dst ≠ e.src)
    (hx : g₀.Leads x) (hdst : x.dst = e.dst) (hport : x.dstPort = e.dstPort) : g₀.kind? x.src = some .register := by
  refine he.via_src (fun {e x} he hx hdst hport => ?_) (fun {e x} he hx hregister hdst => ?_) hfirst hregister hx hdst hport
  · rw [mem_edges_of_finish hb hids hg₀] at he hx
    exact htidy.eq_of_dst he hx hdst hport
  · rw [mem_edges_of_finish hb hids hg₀] at he hx
    rw [← kind?_of_finish hb hids hg₀] at hregister
    rw [(hsingle _ hregister).eq_of_dst hb htidy he hx rfl hdst]

/-- The graph without registers is the graph with them, contracted. -/
theorem contracts_of_finish (h : base.elideRegisters = .ok d) (hg : d.finish contexts = .ok g) : g.Contracts g₀ := by
  have helides := elides_of_finish hb htidy hsingle hids hg₀ h
  have hwired := wellWired_finish hb hg₀
  have hleft := helides.ids_eq hwired
  refine ⟨hleft ▸ size_finish hg, fun {i j n₀} hj hn₀ => ?_, fun {x} => ?_, fun {e j n} he hregister hfirst hj hn => ?_⟩
  · rw [← hleft] at hj ⊢
    exact helides.exists_node hwired hg hj hn₀
  · rw [← hleft]
    exact helides.mem_edges_iff hwired hg
  · rw [← hleft] at hj
    exact helides.driver?_eq_none hg hj hn fun x =>
      kind?_src_of_leads hb htidy hsingle hids hg₀ he hregister hfirst

end

end Draft

/-- The graph of a fabric in one context without its registers is the one with registers, contracted, when cycles are not
broken. -/
theorem contracts_of_build {f : Fabric} {kept elided : Graph} (hf : f.RegistersTakeOne)
    (hkept : build f { contexts := 1, cycleBreak := .none, registers := .retain } = .ok kept)
    (helided : build f { contexts := 1, cycleBreak := .none, registers := .elide } = .ok elided) : elided.Contracts kept := by
  obtain ⟨base, d₀, hbase, hd₀, -, hkept⟩ := Draft.build_eq_ok hkept
  obtain ⟨d', d, hd', hd, -, helided⟩ := Draft.build_eq_ok helided
  cases hd₀
  cases hd
  obtain ⟨d₁, d₂, h₁, h₂, hplain⟩ := Draft.unbroken_eq_ok hbase
  obtain ⟨d₁', d₂', h₁', h₂', helide⟩ := Draft.unbroken_eq_ok hd'
  obtain rfl : d₁ = d₁' := Except.ok.inj (h₁.symm.trans h₁')
  obtain rfl : d₂ = d₂' := Except.ok.inj (h₂.symm.trans h₂')
  rw [if_neg nofun] at hplain
  rw [if_pos ⟨rfl, rfl⟩] at helide
  obtain rfl : d₂ = base := Except.ok.inj hplain
  have hsound₁ := Draft.instantiate_induction Draft.Sound.addCopy Draft.sound_empty h₁
  obtain ⟨hb, hholds⟩ := Draft.wireTies_induction (P := fun d => d.Sound ∧ d.Holds (f.copies 1))
    (fun hd h => ⟨hd.1.wire h, hd.2.wire hd.1 h⟩) ⟨hsound₁, Draft.holds_instantiate h₁⟩ h₂
  exact Draft.contracts_of_finish hb (Draft.tidy_unbroken hbase) (fun r hr => hholds.singleInput hf hr) (hholds.ids_eq hb) hkept
    helide helided

end Graph

/-- A source of constants that drives a sink through two registers, of which the second comes first, and a register without a
driver at the sink's other input. -/
def Fabric.staged : Fabric where
  blocks := [{
    location := ⟨0, 0⟩
    instances := [⟨"source", .functionalUnit, [], ["out"], SortedSet.ofList ["const"]⟩, ⟨"late", .register, ["in"], ["out"], ∅⟩,
      ⟨"early", .register, ["in"], ["out"], ∅⟩, ⟨"idle", .register, ["in"], ["out"], ∅⟩,
      ⟨"sink", .functionalUnit, ["a", "b"], [], SortedSet.ofList ["add"]⟩]
    muxes := []
    operandPorts := [⟨"left", "in", "out", 0⟩, ⟨"right", "in", "out", 1⟩] }]
  ties := [⟨⟨⟨0, 0⟩, "source", "out"⟩, ⟨0, 0⟩, "early", "in"⟩, ⟨⟨⟨0, 0⟩, "early", "out"⟩, ⟨0, 0⟩, "late", "in"⟩,
    ⟨⟨⟨0, 0⟩, "late", "out"⟩, ⟨0, 0⟩, "left", "in"⟩, ⟨⟨⟨0, 0⟩, "idle", "out"⟩, ⟨0, 0⟩, "right", "in"⟩,
    ⟨⟨⟨0, 0⟩, "left", "out"⟩, ⟨0, 0⟩, "sink", "a"⟩, ⟨⟨⟨0, 0⟩, "right", "out"⟩, ⟨0, 0⟩, "sink", "b"⟩]

/-- Its source drives the left port, and nothing drives the right one. -/
theorem staged_contracts : Fabric.staged.validate = .ok () ∧ Fabric.staged.RegistersTakeOne ∧ ∃ kept elided : Graph,
    Graph.build .staged { contexts := 1, cycleBreak := .none, registers := .retain } = .ok kept ∧
    Graph.build .staged { contexts := 1, cycleBreak := .none, registers := .elide } = .ok elided ∧ elided.Contracts kept ∧
    elided.edges = [⟨0, "out", 2, "in"⟩, ⟨2, "out", 1, "a"⟩, ⟨3, "out", 1, "b"⟩] := by
  obtain ⟨kept, hkept⟩ : ∃ g : Graph, Graph.build .staged { contexts := 1, cycleBreak := .none, registers := .retain } = .ok g :=
    ⟨_, rfl⟩
  refine ⟨rfl, by decide, kept, _, hkept, rfl, Graph.contracts_of_build (by decide) hkept rfl, rfl⟩

end PlaceRoute
