import PlaceRoute.Proofs.Graph.CycleBreak

/-!
# The representation invariant of finished graphs

What drafts keep (`Draft.Sound`, `Draft.Tidy`) and the refusal of short loops give what a finished graph satisfies
(`Graph.Consistent`), for every fabric and all options (`consistent_build`).
-/

namespace PlaceRoute

namespace Graph
namespace Draft

variable {d d' : Draft} {f : Fabric} {options : GraphOptions} {e : Edge} {i r : NodeId} {n : Node}

/-! ## Registers -/

/-- The registers that are taken out are all registers. -/
theorem mem_registers (hd : d.Sound) : i ∈ (d.nodes.filter (·.isRegister)).map (·.id) ↔ d.kind? i = some .register := by
  rw [List.mem_map]
  constructor
  · rintro ⟨n, hn, rfl⟩
    obtain ⟨hn, hregister⟩ := List.mem_filter.mp hn
    rw [kind?_of_node? ((mem_nodes hd).mp hn)]
    unfold Node.isRegister at hregister
    split at hregister
    · next hk => rw [hk]
    · cases hregister
  · intro hi
    obtain ⟨n, hn, hregister⟩ := Option.map_eq_some_iff.mp hi
    refine ⟨n, List.mem_filter.mpr ⟨(mem_nodes hd).mpr (hd.id hn ▸ hn), ?_⟩, hd.id hn⟩
    rw [Node.isRegister, hregister]

/-- Taking all registers out leaves none. -/
theorem kind?_elideRegisters (hd : d.Sound) (h : d.elideRegisters = .ok d') : d'.kind? i ≠ some .register := by
  have hfold {l : List NodeId} {d : Draft} (hd : d.Sound) (h : l.foldlM elideRegister d = .ok d')
      (hi : d'.kind? i = some .register) : d.kind? i = some .register ∧ i ∉ l := by
    induction l generalizing d with
    | nil =>
      cases h
      exact ⟨hi, List.not_mem_nil⟩
    | cons r l ih =>
      rw [List.foldlM_cons] at h
      obtain ⟨d₁, h₁, h⟩ := bind_eq_ok h
      obtain ⟨hkind, hl⟩ := ih (hd.elideRegister h₁) h
      obtain ⟨hkind, hne⟩ := (kind?_elideRegister hd h₁ rfl).mp hkind
      exact ⟨hkind, fun hmem => (List.mem_cons.mp hmem).elim hne hl⟩
  intro hi
  obtain ⟨hkind, hout⟩ := hfold hd h hi
  exact hout ((mem_registers hd).mpr hkind)

theorem kind?_unbroken_ne_register (h : unbroken f options = .ok d)
    (helide : options.contexts = 1 ∧ options.registers = .elide) : d.kind? i ≠ some .register := by
  obtain ⟨d₁, d₂, h₁, h₂, h⟩ := unbroken_eq_ok h
  rw [if_pos helide] at h
  exact kind?_elideRegisters (wireTies_induction Sound.wire (instantiate_induction Sound.addCopy sound_empty h₁) h₂) h

/-- Breaking cycles adds nothing but ties. -/
theorem kind?_breakCycles {policy : CycleBreak} {k : NodeKind} (hd : d.Sound) (h : d.breakCycles policy = .ok d')
    (hi : d'.kind? i = some k) : k = .tie ∨ d.kind? i = some k := by
  obtain ⟨cut, hs⟩ := exists_splits_of_breakCycles hd h
  by_cases hlt : i < d.slots.size
  · exact Or.inr (hs.old i hlt ▸ hi)
  · obtain ⟨j, rfl⟩ := Nat.exists_eq_add_of_le (Nat.le_of_not_lt hlt)
    have hj : j < cut.length := Nat.lt_of_add_lt_add_left (hs.size ▸ kind?_lt hi)
    rw [hs.tie j hj] at hi
    exact Or.inl (Option.some.inj hi).symm

/-! ## Short loops -/

/-- No edge leads back over one more edge. -/
theorem dst_ne_of_checkShortLoops {x : Edge} (hd : d.Sound) (h : d.checkShortLoops = .ok ()) (he : d.Has e) (hx : d.Has x)
    (hnext : x.src = e.dst) : x.dst ≠ e.src := by
  obtain ⟨n, hn, hsends⟩ := hd.sends_iff.mpr he
  obtain ⟨via, hvia, hback⟩ := hd.sends_iff.mpr hx
  have hid := hd.id hn
  have hloops : d.checkLoops n = .ok () := forM_eq_ok_iff.mp h n ((mem_nodes hd).mpr (by rw [hid, hn]))
  have hstep := forM_eq_ok_iff.mp hloops e.dst (Node.mem_fanout.mpr ⟨_, _, hsends⟩)
  dsimp only at hstep
  split at hstep
  · cases hstep
  obtain ⟨via', hvia', hstep⟩ := bind_eq_ok hstep
  obtain rfl : via = via' := Option.some.inj (hvia.symm.trans (hnext ▸ node_eq_ok hvia'))
  intro hdst
  rw [if_pos (Node.mem_fanout.mpr ⟨_, _, by rw [hid, ← hdst]; exact hback⟩)] at hstep
  cases hstep

end Draft

/-! ## The finished graph -/

/-- The representation invariant of a graph. -/
structure Consistent (g : Graph) : Prop extends g.WellWired where
  units_increasing : g.units.Pairwise (· < ·)
  routing_increasing : g.routing.Pairwise (· < ·)
  /-- Units and routing nodes are all nodes, each once. -/
  parts : (g.units ++ g.routing).Perm g.ids
  /-- Both ends of an edge list it. -/
  sends_iff : ∀ {e : Edge}, g.Sends e ↔ g.Receives e
  /-- The ports of edges are declared and no input port has two drivers. -/
  tidy : ∀ {i : NodeId} {n : Node}, g.node? i = some n → n.Tidy
  no_loop : ∀ {i : NodeId}, i ∉ g.fanout i
  no_return : ∀ {i j : NodeId}, j ∈ g.fanout i → i ∉ g.fanout j

namespace Draft

variable {d : Draft} {contexts : Nat} {g : Graph}

/-- The graph of a tidy draft without short loops is consistent. -/
theorem consistent_finish (hd : d.Sound) (htidy : d.Tidy) (hloops : d.checkShortLoops = .ok ())
    (h : d.finish contexts = .ok g) : g.Consistent := by
  obtain ⟨nodes, -, hnodes, hunits, hrouting⟩ := finish_eq_ok h
  have hids : nodes.map (·.id) = List.range nodes.length :=
    map_eq_range_of_index _ fun j n hj => id_finish hd h (by rwa [Graph.node?, hnodes, List.getElem?_toArray])
  have hincreasing (p : Node → Bool) : ((nodes.filter p).map (·.id)).Pairwise (· < ·) :=
    (hids ▸ List.pairwise_lt_range).sublist (List.filter_sublist.map _)
  have hsame {i j : NodeId} {k : NodeId} (hi : d.ids[i]? = some k) (hj : d.ids[i]? = some j) : k = j :=
    Option.some.inj (hi.symm.trans hj)
  refine ⟨wellWired_finish hd h, hunits ▸ hincreasing _, hrouting ▸ hincreasing _, ?_, fun {e} => ?_, fun {i n'} hn' => ?_,
    fun {i} hi => ?_, fun {i j} hij hji => ?_⟩
  · rw [hunits, hrouting, ← List.map_append, Graph.ids, hnodes]
    exact (List.filter_append_perm _ nodes).map _
  · rw [sends_finish hd h, receives_finish hd h]
  · obtain ⟨n, -, hn, hn'⟩ := (node?_finish hd h).mp hn'
    obtain ⟨hinputs, houtputs, -⟩ := renumberNode_eq_ok hn'
    have hn := htidy _ n hn
    exact ⟨hn.inputs.mapValues hinputs, hn.outputs.mapValues houtputs, hn.driver.mapValues hinputs⟩
  · obtain ⟨e, he, hsrc, hdst⟩ := (mem_fanout_finish hd h).mp hi
    exact hd.loopless he (hsame hsrc hdst)
  · obtain ⟨e, he, hsrc, hdst⟩ := (mem_fanout_finish hd h).mp hij
    obtain ⟨x, hx, hback, hend⟩ := (mem_fanout_finish hd h).mp hji
    exact dst_ne_of_checkShortLoops hd hloops he hx (hsame hback hdst) (hsame hend hsrc)

end Draft

/-- Every graph that is built from a fabric is consistent, and has no registers when these are elided. -/
theorem consistent_build {f : Fabric} {options : GraphOptions} {g : Graph} (h : build f options = .ok g) :
    g.Consistent ∧ (options.contexts = 1 → options.registers = .elide → ∀ n ∈ g.nodes.toList, n.isRegister = false) := by
  obtain ⟨base, d, hbase, hd, hloops, h⟩ := Draft.build_eq_ok h
  have hb := Draft.sound_unbroken hbase
  have hsound := hb.breakCycles hd
  have hg := Draft.consistent_finish hsound (Draft.breakCycles_induction Draft.Tidy.splitWithTie (Draft.tidy_unbroken hbase) hd) hloops h
  refine ⟨hg, fun hcontexts hregisters n hn => Bool.eq_false_iff.mpr fun hregister => ?_⟩
  have hnode := hg.node?_of_mem hn
  have hkind : n.kind = .register := by
    unfold Node.isRegister at hregister
    split at hregister
    · assumption
    · cases hregister
  obtain ⟨i, -, hi⟩ := (Draft.kind?_finish_of_routing hsound h (k := .register) rfl).mp
    (show g.kind? n.id = _ by rw [Graph.kind?, hnode, Option.map_some, hkind])
  rcases Draft.kind?_breakCycles hb hd hi with htie | hi
  · cases htie
  · exact Draft.kind?_unbroken_ne_register hbase ⟨hcontexts, hregisters⟩ hi

end Graph

/-- A source of constants that drives a sink through a register and an operand port. -/
def Fabric.delayed : Fabric where
  blocks := [{
    location := ⟨0, 0⟩
    instances := [⟨"source", .functionalUnit, [], ["out"], SortedSet.ofList ["const"]⟩,
      ⟨"delay", .register, ["in"], ["out"], ∅⟩, ⟨"sink", .functionalUnit, ["a"], [], SortedSet.ofList ["store"]⟩]
    muxes := []
    operandPorts := [⟨"port", "in", "out", 0⟩] }]
  ties := [⟨⟨⟨0, 0⟩, "source", "out"⟩, ⟨0, 0⟩, "delay", "in"⟩, ⟨⟨⟨0, 0⟩, "delay", "out"⟩, ⟨0, 0⟩, "port", "in"⟩,
    ⟨⟨⟨0, 0⟩, "port", "out"⟩, ⟨0, 0⟩, "sink", "a"⟩]

/-- Its graph of one context loses the register. -/
theorem delayed_consistent : ∃ g : Graph, Graph.build .delayed {} = .ok g ∧ g.Consistent ∧
    ∀ n ∈ g.nodes.toList, n.isRegister = false := by
  obtain ⟨g, hg⟩ : ∃ g : Graph, Graph.build .delayed {} = .ok g := ⟨_, rfl⟩
  obtain ⟨hconsistent, hregisters⟩ := Graph.consistent_build hg
  exact ⟨g, hg, hconsistent, hregisters rfl rfl⟩

end PlaceRoute
