import PlaceRoute.Fabric.Validation
import PlaceRoute.Proofs.Graph.Build
import PlaceRoute.Proofs.Mapping.Accept
import PlaceRoute.Proofs.Mapping.Faithful
import PlaceRoute.Proofs.Mapping.Supply
import PlaceRoute.Proofs.Session.Bounds

/-!
# Paths of accepted models

- The paths of a solution lead along wires from hosts of their sources to ports of hosts of their consumers, without meeting a
  node twice, and what is carried for two values is apart (`Solution.WellRouted`). So it is in every solution that the check
  returns (`verify_wellRouted`).
- A path may lead through functional units that have no part in its flow (`relay_not_routing`). It does exactly where a port at
  which the flow does not end hands it on to its unit, and nowhere if flows end at ports (`verify_tail_routing_iff`).
-/

namespace PlaceRoute

/-- Paths lead along wires from a host of their source to a port of a host of their consumer; values are kept apart. -/
structure Solution.WellRouted (s : Solution) (g : Graph) (d : Design) (m : Model) : Prop where
  /-- The units of each operation are those that host it. -/
  placements : ∀ op ∈ d.operations, s.placements.get? op.id = some (m.hosts g op.id)
  /-- A path belongs to a flow of the design and starts at a host of its source, which supports it. -/
  starts : ∀ p ∈ s.paths, ∃ v ∈ d.values, p.value = v.id ∧ p.terminal ∈ v.dsts ∧ ∃ src, d.op? v.src = some src ∧
    ∃ u ∈ m.hosts g v.src, Family.supports g u src = true ∧ p.nodes.head? = some u
  /-- It ends at the operand port that a host of its consumer binds to the operand. -/
  ends : ∀ p ∈ s.paths, ∃ u ∈ m.hosts g p.terminal.op, ∃ node, g.node? u = some node ∧
    ∃ port, node.operandPort? p.terminal.operand = some port ∧ p.nodes.getLast? = some port
  /-- It follows a wire at each step. -/
  wires : ∀ p ∈ s.paths, p.nodes.IsChain fun x y => y ∈ g.fanout x
  nodup : ∀ p ∈ s.paths, p.nodes.Nodup
  /-- All its nodes carry the net, and its routing nodes are listed for it. -/
  nets : ∀ p ∈ s.paths, ∀ n ∈ p.nodes, m.isSet (.route n p.value) = true
  carried : ∀ p ∈ s.paths, ∀ n ∈ p.nodes, n ∉ g.units → n ∈ s.carriedNodes p.value
  /-- No routing node is listed for two values. -/
  carried_disjoint : ∀ i j, i ≠ j → (s.carriedNodes i).Disjoint (s.carriedNodes j)
  /-- No node, units included, is on paths of two values. -/
  paths_disjoint : ∀ p ∈ s.paths, ∀ q ∈ s.paths, p.value ≠ q.value → p.nodes.Disjoint q.nodes

namespace Model

variable {g : Graph} {d : Design} {m : Model} {s : Solution} {v w : Value} {t : Terminal} {n : NodeId} {i : ValueId}

/-! ## Listed nodes -/

/-- The nodes listed for a net. -/
theorem get?_carriedNets (hd : d.WellWired) {nodes : SortedSet NodeId} : (m.carriedNets g d).get? i = some nodes ↔
    ∃ v ∈ d.values, v.id = i ∧ SortedSet.ofList (g.routing.filter fun n => m.isSet (.route n i)) = nodes ∧
      nodes.isEmpty = false := by
  unfold carriedNets
  rw [SortedMap.get?_filter_eq_some_iff, SortedMap.get?_eq_some_iff, SortedMap.mem_toList_ofList, List.mem_map]
  · constructor
    · rintro ⟨⟨v, hv, heq⟩, hne⟩
      cases heq
      exact ⟨v, hv, rfl, rfl, by simpa using hne⟩
    · rintro ⟨v, hv, rfl, rfl, hne⟩
      exact ⟨⟨v, hv, rfl⟩, by simpa using hne⟩
  · -- Each value is listed once.
    intro i nodes nodes' h h'
    obtain ⟨v, hv, heq⟩ := List.mem_map.mp h
    obtain ⟨v', hv', heq'⟩ := List.mem_map.mp h'
    cases heq
    obtain ⟨hid, rfl⟩ := Prod.mk.inj heq'
    rw [hd.value_inj hv hv' hid.symm]

/-- The nodes listed for a value are the routing nodes that carry its net. -/
theorem mem_carriedNodes (hd : d.WellWired) (h : m.verify g d = .ok s) : n ∈ s.carriedNodes i ↔
    (∃ v ∈ d.values, v.id = i) ∧ n ∈ g.routing ∧ m.isSet (.route n i) = true := by
  obtain ⟨⟨⟩, -, hnets⟩ := bind_eq_ok (verify_eq_ok h).2.1
  have hlisted : n ∈ s.carriedNodes i ↔ ∃ nodes, (m.carriedNets g d).get? i = some nodes ∧ n ∈ nodes := by
    unfold Solution.carriedNodes
    rw [← Except.ok.inj hnets]
    cases (m.carriedNets g d).get? i with
    | none => exact iff_of_false SortedSet.not_mem_empty (by rintro ⟨nodes, ⟨⟩, -⟩)
    | some nodes => simp
  have hcarries : n ∈ SortedSet.ofList (g.routing.filter fun n => m.isSet (.route n i)) ↔
      n ∈ g.routing ∧ m.isSet (.route n i) = true := SortedSet.mem_ofList.trans List.mem_filter
  rw [hlisted, ← hcarries]
  constructor
  · rintro ⟨nodes, hnodes, hn⟩
    obtain ⟨v, hv, hid, rfl, -⟩ := (get?_carriedNets hd).mp hnodes
    exact ⟨⟨v, hv, hid⟩, hn⟩
  · rintro ⟨⟨v, hv, hid⟩, hn⟩
    exact ⟨_, (get?_carriedNets hd).mpr ⟨v, hv, hid, rfl, List.isEmpty_eq_false_iff_exists_mem.mpr ⟨n, hn⟩⟩, hn⟩

/-- A node carries the net of one value. -/
theorem Accepted.value_unique (h : m.Accepted g d) (hn : n ∈ g.ids) (hv : v ∈ d.values) (hw : w ∈ d.values)
    (hvn : m.isSet (.route n v.id) = true) (hwn : m.isSet (.route n w.id) = true) : v = w :=
  eq_of_countP_le_one (h.nodes n hn) hv hw hvn hwn

/-- The nodes of a path carry its net. -/
theorem Accepted.route_of_traced (h : m.Accepted g d) (hg : g.WellWired) {paths : List RoutedPath}
    (htr : m.Traced g d paths) {p : RoutedPath} (hp : p ∈ paths) (hn : n ∈ p.nodes) :
    n ∈ g.ids ∧ m.isSet (.route n p.value) = true := by
  obtain ⟨v, hv, hpv, ht, -⟩ := htr.walks p hp
  have hids := hg.mem_ids.mpr (htr.has hg hp n hn)
  have hflow := htr.isSet hp n hn
  rw [hpv] at hflow ⊢
  exact ⟨hids, h.nets n hids v hv p.terminal ht hflow⟩

/-! ## The solution -/

/-- The hosts of all operations are returned. -/
theorem placements_eq (h : m.verify g d = .ok s) :
    s.placements = .ofList (d.operations.map fun op => (op.id, m.hosts g op.id)) := by
  obtain ⟨⟨⟩, -, hplacements⟩ := bind_eq_ok (verify_eq_ok h).1
  obtain ⟨⟨⟩, -, hplacements⟩ := bind_eq_ok hplacements
  exact (Except.ok.inj hplacements).symm

theorem get?_placements (h : m.verify g d = .ok s) {op : Operation} (hop : op ∈ d.operations) :
    s.placements.get? op.id = some (m.hosts g op.id) := by
  rw [placements_eq h, SortedMap.get?_eq_some_iff, SortedMap.mem_toList_ofList]
  · exact List.mem_map_of_mem hop
  · intro i hosts hosts' h h'
    obtain ⟨op, -, heq⟩ := List.mem_map.mp h
    obtain ⟨op', -, heq'⟩ := List.mem_map.mp h'
    cases heq
    obtain ⟨hid, rfl⟩ := Prod.mk.inj heq'
    rw [hid]

theorem wellRouted_of_verify (hg : g.WellWired) (hd : d.WellWired) (h : m.verify g d = .ok s) : s.WellRouted g d m := by
  have haccepted := accepted_of_verify h
  have htr := traced (verify_eq_ok h).2.2
  have hnet {p : RoutedPath} (hp : p ∈ s.paths) {n : NodeId} (hn : n ∈ p.nodes) := haccepted.route_of_traced hg htr hp hn
  constructor
  case placements => exact fun op hop => get?_placements h hop
  case starts =>
    intro p hp
    obtain ⟨v, hv, hpv, ht, u, hu, -, hwalk⟩ := htr.walks p hp
    obtain ⟨src, hsrc, -⟩ := hd.src hv
    obtain ⟨hunit, hplace⟩ := mem_hosts.mp hu
    refine ⟨v, hv, hpv, ht, src, hsrc, u, hu, ?_, hwalk.head?_eq⟩
    by_contra hnot
    have hoff := haccepted.supported u hunit src (List.mem_of_getElem? hsrc) (Bool.eq_false_iff.mpr hnot)
    rw [hd.op_id hsrc, hplace] at hoff
    cases hoff
  case ends =>
    intro p hp
    obtain ⟨v, -, -, -, u, -, -, hwalk⟩ := htr.walks p hp
    obtain ⟨port, hport, hlast⟩ := hwalk.exists_getLast?_eq
    obtain ⟨u, hu, node, hnode, hbound⟩ := mem_targets.mp (SortedSet.mem_toList.mp hport)
    exact ⟨u, hu, node, hnode, port, hbound, hlast⟩
  case wires =>
    intro p hp
    obtain ⟨v, -, -, -, u, -, -, hwalk⟩ := htr.walks p hp
    exact hwalk.isChain.imp fun x y hy => (mem_nextNodes.mp hy).1
  case nodup =>
    intro p hp
    obtain ⟨v, -, -, -, u, -, -, hwalk⟩ := htr.walks p hp
    exact hwalk.nodup
  case nets => exact fun p hp n hn => (hnet hp hn).2
  case carried =>
    intro p hp n hn hunit
    obtain ⟨v, hv, hpv, -⟩ := htr.walks p hp
    have hrouting := (hg.unit_or_routing (htr.has hg hp n hn)).resolve_left hunit
    exact (mem_carriedNodes hd h).mpr ⟨⟨v, hv, hpv.symm⟩, hrouting, (hnet hp hn).2⟩
  case carried_disjoint =>
    intro i j hne n hi hj
    obtain ⟨⟨v, hv, rfl⟩, hrouting, hvn⟩ := (mem_carriedNodes hd h).mp hi
    obtain ⟨⟨w, hw, rfl⟩, -, hwn⟩ := (mem_carriedNodes hd h).mp hj
    have hids := hg.mem_ids.mpr (hg.has_of_routing hrouting)
    exact hne (congrArg Value.id (haccepted.value_unique hids hv hw hvn hwn))
  case paths_disjoint =>
    intro p hp q hq hne n hnp hnq
    obtain ⟨v, hv, hpv, -⟩ := htr.walks p hp
    obtain ⟨w, hw, hqw, -⟩ := htr.walks q hq
    obtain ⟨hids, hvn⟩ := hnet hp hnp
    have hwn := (hnet hq hnq).2
    rw [hpv] at hvn hne
    rw [hqw] at hwn hne
    exact hne (congrArg Value.id (haccepted.value_unique hids hv hw hvn hwn))

/-! ## Units on paths -/

/-- A port of a unit hands a flow on to the unit, although the flow does not end at the port. -/
def HandsOn (g : Graph) (m : Model) (v : ValueId) (t : Terminal) (port u : NodeId) : Prop :=
  port ∉ m.targets g t ∧ m.isSet (.routeTo u v t) = true ∧
    ∃ node, g.node? u = some node ∧ node.isUnit = true ∧ ∃ i, node.operandPort? i = some port

/-- The units on a path after its first node are those that a port on it hands the flow on to. -/
theorem Traced.unit_tail_iff (hg : g.WellWired) {paths : List RoutedPath} (htr : m.Traced g d paths) {p : RoutedPath}
    (hp : p ∈ paths) {u : NodeId} : u ∈ p.nodes.tail ∧ u ∈ g.units ↔ ∃ port ∈ p.nodes, m.HandsOn g p.value p.terminal port u := by
  obtain ⟨v, -, hpv, -, source, -, -, hwalk⟩ := htr.walks p hp
  rw [hwalk.mem_tail_iff, hpv]
  constructor
  · rintro ⟨⟨port, hport, hnot, hu⟩, hunit⟩
    obtain ⟨node, hnode, hisUnit⟩ := hg.units.mp hunit
    obtain ⟨hfanout, hset⟩ := mem_nextNodes.mp hu
    have hfanin := hg.fanin_iff_fanout.mpr hfanout
    obtain ⟨i, q, hq, hkind⟩ := hg.driver_of_unit hunit hfanin
    exact ⟨port, hport, mt SortedSet.mem_toList.mpr hnot, hset, node, hnode, hisUnit, i,
      (hg.bound_iff hnode hisUnit).mpr ⟨hfanin, q, hq, hkind⟩⟩
  · rintro ⟨port, hport, hnot, hset, node, hnode, hisUnit, i, hbound⟩
    have hfanin := ((hg.bound_iff hnode hisUnit).mp hbound).1
    exact ⟨⟨port, hport, mt SortedSet.mem_toList.mp hnot, mem_nextNodes.mpr ⟨hg.fanin_iff_fanout.mp hfanin, hset⟩⟩,
      hg.units.mpr ⟨node, hnode, hisUnit⟩⟩

/-- Where flows end at ports, none is handed on. -/
theorem not_handsOn_of_flowsEndAtPorts (hg : g.WellWired) (hd : d.WellWired) (h : Family.FlowsEndAtPorts g d m.isSet)
    (hv : v ∈ d.values) (ht : t ∈ v.dsts) {port u : NodeId} (hport : m.isSet (.routeTo port v.id t) = true) :
    ¬ m.HandsOn g v.id t port u := by
  rintro ⟨hnot, -, node, hnode, hisUnit, i, hbound⟩
  have hfanin := ((hg.bound_iff hnode hisUnit).mp hbound).1
  have hunit := hg.units.mpr ⟨node, hnode, hisUnit⟩
  exact hnot (mem_targets_of_feeds hd hg h hv ht hunit (hg.fanin_iff_fanout.mp hfanin) hport)

end Model

section
variable {f : Fabric} {options : GraphOptions} {g : Graph} {d : Design} {operations : SortedMap String String}
  {ties : List NamedTie} {duplicates : SortedSet String} {m : Model} {s : Solution}

/-- Whatever its keys and values, a model that passes the check yields paths along wires, from hosts of their sources to
ports of hosts of their consumers, and no node is used by two values. -/
theorem verify_wellRouted (hg : Graph.build f options = .ok g) (hd : Design.new operations ties duplicates = .ok d)
    (hverify : m.verify g d = .ok s) : s.WellRouted g d m :=
  Model.wellRouted_of_verify (Graph.wellWired_build hg) (Design.wellWired_new hd) hverify

/-- A source, a relay and a sink, each of which drives the next one through its operand port. -/
def Fabric.relay : Fabric where
  blocks := [{
    location := ⟨0, 0⟩
    instances := [⟨"source", .functionalUnit, [], ["out"], SortedSet.ofList ["const"]⟩,
      ⟨"relay", .functionalUnit, ["a"], ["out"], SortedSet.ofList ["not"]⟩,
      ⟨"sink", .functionalUnit, ["a"], [], SortedSet.ofList ["store"]⟩]
    muxes := []
    operandPorts := [⟨"relay_port", "in", "out", 0⟩, ⟨"sink_port", "in", "out", 0⟩] }]
  ties := [⟨⟨⟨0, 0⟩, "source", "out"⟩, ⟨0, 0⟩, "relay_port", "in"⟩, ⟨⟨⟨0, 0⟩, "relay_port", "out"⟩, ⟨0, 0⟩, "relay", "a"⟩,
    ⟨⟨⟨0, 0⟩, "relay", "out"⟩, ⟨0, 0⟩, "sink_port", "in"⟩, ⟨⟨⟨0, 0⟩, "sink_port", "out"⟩, ⟨0, 0⟩, "sink", "a"⟩]

/-- The source and the sink are placed; the value of the source is carried everywhere but on the sink. -/
def Model.relay : Model :=
  .ofList [(.place 0 0, 1), (.place 2 1, 1), (.route 0 0, 1), (.routeTo 0 0 ⟨1, 0⟩, 1), (.route 3 0, 1),
    (.routeTo 3 0 ⟨1, 0⟩, 1), (.route 1 0, 1), (.routeTo 1 0 ⟨1, 0⟩, 1), (.route 4 0, 1), (.routeTo 4 0 ⟨1, 0⟩, 1)]

/-- The check accepts it, with a path through the relay, which hosts nothing. -/
theorem exists_relay : ∃ (g : Graph) (d : Design) (s : Solution), Graph.build .relay {} = .ok g ∧
    Design.new (.ofList [("c", "const"), ("s", "store")]) [⟨"c", "s", 0⟩] ∅ = .ok d ∧ Model.relay.verify g d = .ok s ∧
    1 ∈ g.units ∧ ∃ p ∈ s.paths, p.nodes = [0, 3, 1, 4] := by
  have haccepted : ((Graph.build .relay {}).toOption.any fun g =>
      (Design.new (.ofList [("c", "const"), ("s", "store")]) [⟨"c", "s", 0⟩] ∅).toOption.any fun d =>
        (Model.relay.verify g d).toOption.any fun s =>
          decide (1 ∈ g.units) && s.paths.any fun p => p.nodes == [0, 3, 1, 4]) = true := by decide +kernel
  obtain ⟨g, hg, haccepted⟩ := exists_ok_of_any haccepted
  obtain ⟨d, hd, haccepted⟩ := exists_ok_of_any haccepted
  obtain ⟨s, hs, haccepted⟩ := exists_ok_of_any haccepted
  obtain ⟨hunit, hpath⟩ := Bool.and_eq_true_iff.mp haccepted
  obtain ⟨p, hp, hnodes⟩ := List.any_eq_true.mp hpath
  exact ⟨g, d, s, hg, hd, hs, of_decide_eq_true hunit, p, hp, beq_iff_eq.mp hnodes⟩

theorem relay_wellRouted : ∃ (g : Graph) (d : Design) (s : Solution), Graph.build .relay {} = .ok g ∧
    Design.new (.ofList [("c", "const"), ("s", "store")]) [⟨"c", "s", 0⟩] ∅ = .ok d ∧ Model.relay.verify g d = .ok s ∧
    s.WellRouted g d .relay ∧ s.paths ≠ [] := by
  obtain ⟨g, d, s, hg, hd, hs, -, p, hp, -⟩ := exists_relay
  exact ⟨g, d, s, hg, hd, hs, verify_wellRouted hg hd hs, List.ne_nil_of_mem hp⟩

/-- After its first node, a path of a model that passes the check visits routing nodes only, exactly if no port on it hands the
flow on to its unit; if flows end at ports, as the families ask, none does. -/
theorem verify_tail_routing_iff (hg : Graph.build f options = .ok g) (hd : Design.new operations ties duplicates = .ok d)
    (hverify : m.verify g d = .ok s) : ∀ p ∈ s.paths,
      ((∀ n ∈ p.nodes.tail, n ∈ g.routing) ↔ ∀ port ∈ p.nodes, ∀ u, ¬ m.HandsOn g p.value p.terminal port u) ∧
      (Family.FlowsEndAtPorts g d m.isSet → ∀ n ∈ p.nodes.tail, n ∈ g.routing) := by
  intro p hp
  have hg := Graph.wellWired_build hg
  have hd := Design.wellWired_new hd
  have htr := Model.traced (Model.verify_eq_ok hverify).2.2
  have hiff : (∀ n ∈ p.nodes.tail, n ∈ g.routing) ↔ ∀ port ∈ p.nodes, ∀ u, ¬ m.HandsOn g p.value p.terminal port u := by
    constructor
    · intro hrouting port hport u hon
      obtain ⟨hu, hunit⟩ := (htr.unit_tail_iff hg hp).mpr ⟨port, hport, hon⟩
      exact hg.not_routing_of_unit hunit (hrouting u hu)
    · intro hnone n hn
      refine (hg.unit_or_routing (htr.has hg hp n (List.mem_of_mem_tail hn))).resolve_left fun hunit => ?_
      obtain ⟨port, hport, hon⟩ := (htr.unit_tail_iff hg hp).mp ⟨hn, hunit⟩
      exact hnone port hport n hon
  refine ⟨hiff, fun hends => hiff.mpr fun port hport u => ?_⟩
  obtain ⟨v, hv, hpv, ht, -⟩ := htr.walks p hp
  have hset := htr.isSet hp port hport
  rw [hpv] at hset ⊢
  exact Model.not_handsOn_of_flowsEndAtPorts hg hd hends hv ht hset

theorem line_tail_routing : ∃ (g : Graph) (d : Design) (s : Solution), Graph.build .line {} = .ok g ∧
    Design.new (.ofList [("c", "const"), ("s", "store")]) [⟨"c", "s", 0⟩] ∅ = .ok d ∧ Model.line.verify g d = .ok s ∧
    Family.FlowsEndAtPorts g d Model.line.isSet ∧ ∀ p ∈ s.paths, ∀ n ∈ p.nodes.tail, n ∈ g.routing := by
  obtain ⟨g, d, hg, hd⟩ := exists_line
  obtain ⟨s, hs⟩ := line_verify hg hd (line_isMapping hg hd)
  have hends := (line_isMapping hg hd).holds .portPlacement
  exact ⟨g, d, s, hg, hd, hs, hends, fun p hp => (verify_tail_routing_iff hg hd hs p hp).2 hends⟩

/-- The relay hosts nothing and carries the value from its port to that of the sink: the check accepts the path through it. -/
theorem relay_not_routing : ∃ (g : Graph) (d : Design) (s : Solution), Fabric.relay.validate = .ok () ∧
    Graph.build .relay {} = .ok g ∧ Design.new (.ofList [("c", "const"), ("s", "store")]) [⟨"c", "s", 0⟩] ∅ = .ok d ∧
    Model.relay.verify g d = .ok s ∧ ∃ p ∈ s.paths, ∃ n ∈ p.nodes.tail, n ∈ g.units ∧ n ∉ g.routing := by
  obtain ⟨g, d, s, hg, hd, hs, hunit, p, hp, hnodes⟩ := exists_relay
  have hmem : 1 ∈ p.nodes.tail := by simp [hnodes]
  exact ⟨g, d, s, rfl, hg, hd, hs, p, hp, 1, hmem, hunit, (Graph.wellWired_build hg).not_routing_of_unit hunit⟩

end

end PlaceRoute
