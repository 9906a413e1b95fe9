import PlaceRoute.Proofs.Graph.Build
import PlaceRoute.Proofs.Mapping.Faithful
import PlaceRoute.Proofs.Mapping.Supply
import PlaceRoute.Proofs.Mapping.Sustain

/-!
# The check and the families agree

On ordinary graphs every mapping passes the check, and from a model that passes it a mapping can be made, which takes no
decision that the model does not take (`verify_agrees`). It has a least set of placements that sustain themselves and the direct
walks to these (`Model.planned`): flows that lead nowhere, hosts that nothing is taken from and walks that join others are
left out.
-/

namespace PlaceRoute
namespace Model

/-- The decisions for placements and the walks to them. -/
def planned (d : Design) (walkTo : Value → Terminal → NodeId → List NodeId) (placed : Finset (NodeId × OpId)) : Key → Bool
  | .place u op => decide ((u, op) ∈ placed)
  | .route n i => decide (∃ v ∈ d.values, v.id = i ∧ ∃ t ∈ v.dsts, ∃ p ∈ placed, p.2 = t.op ∧ n ∈ walkTo v t p.1)
  | .routeTo n i t => decide (∃ v ∈ d.values, v.id = i ∧ t ∈ v.dsts ∧ ∃ p ∈ placed, p.2 = t.op ∧ n ∈ walkTo v t p.1)

variable {g : Graph} {d : Design} {m : Model} {walkTo : Value → Terminal → NodeId → List NodeId}
  {placed : Finset (NodeId × OpId)} {v : Value} {t : Terminal} {n u x y : NodeId}

theorem planned_place {op : OpId} : planned d walkTo placed (.place u op) = true ↔ (u, op) ∈ placed := decide_eq_true_iff

theorem planned_routeTo (hd : d.WellWired) (hv : v ∈ d.values) (ht : t ∈ v.dsts) :
    planned d walkTo placed (.routeTo n v.id t) = true ↔ ∃ u, (u, t.op) ∈ placed ∧ n ∈ walkTo v t u := by
  rw [planned, decide_eq_true_iff]
  constructor
  · rintro ⟨v', hv', hid, -, ⟨u, op⟩, hp, rfl, hn⟩
    obtain rfl := hd.value_inj hv' hv hid
    exact ⟨u, hp, hn⟩
  · rintro ⟨u, hp, hn⟩
    exact ⟨v, hv, rfl, ht, (u, t.op), hp, rfl, hn⟩

theorem planned_route (hd : d.WellWired) (hv : v ∈ d.values) :
    planned d walkTo placed (.route n v.id) = true ↔ ∃ t ∈ v.dsts, planned d walkTo placed (.routeTo n v.id t) = true := by
  rw [planned, decide_eq_true_iff]
  constructor
  · rintro ⟨v', hv', hid, t, ht, hp⟩
    obtain rfl := hd.value_inj hv' hv hid
    exact ⟨t, ht, decide_eq_true ⟨v', hv, rfl, ht, hp⟩⟩
  · rintro ⟨t, ht, hset⟩
    obtain ⟨u, hu, hn⟩ := (planned_routeTo hd hv ht).mp hset
    exact ⟨v, hv, rfl, t, ht, (u, t.op), hu, rfl, hn⟩

/-- Direct walks to the hosts of an accepted model, and a least set of placements that sustain themselves. -/
structure Plan (g : Graph) (d : Design) (m : Model) (walkTo : Value → Terminal → NodeId → List NodeId)
    (placed : Finset (NodeId × OpId)) : Prop where
  design : d.WellWired
  graph : g.WellWired
  ports : g.Ordinary
  accepted : m.Accepted g d
  walks : ∀ v ∈ d.values, ∀ t ∈ v.dsts, ∀ u ∈ m.hosts g t.op, m.Direct g v t u (walkTo v t u)
  least : Minimal (m.Sustained g d walkTo) placed

namespace Plan

variable (h : m.Plan g d walkTo placed)
include h

theorem direct (hv : v ∈ d.values) (ht : t ∈ v.dsts) (hu : (u, t.op) ∈ placed) : m.Direct g v t u (walkTo v t u) :=
  h.walks v hv t ht u (h.least.prop.hosts hu)

theorem has (hv : v ∈ d.values) (ht : t ∈ v.dsts) (hu : (u, t.op) ∈ placed) (hn : n ∈ walkTo v t u) : g.Has n := by
  have hwalk := h.direct hv ht hu
  rcases hwalk.routing n hn with rfl | hr
  · exact h.graph.has_of_unit hwalk.head_mem_units
  · exact h.graph.has_of_routing hr

/-- A planned decision is one of the model. -/
theorem isSet {k : Key} (hk : planned d walkTo placed k = true) : m.isSet k = true := by
  cases k with
  | place u op => exact (mem_hosts.mp (h.least.prop.hosts (planned_place.mp hk))).2
  | routeTo n i t =>
    obtain ⟨v, hv, rfl, ht, ⟨u, op⟩, hu, rfl, hn⟩ := decide_eq_true_iff.mp hk
    exact (h.direct hv ht hu).carries n hn
  | route n i =>
    obtain ⟨v, hv, rfl, t, ht, ⟨u, op⟩, hu, rfl, hn⟩ := decide_eq_true_iff.mp hk
    exact h.accepted.nets n (h.graph.mem_ids.mpr (h.has hv ht hu hn)) v hv t ht ((h.direct hv ht hu).carries n hn)

/-- A unit that carries a planned flow hosts the source. -/
theorem source_of_unit (hu : u ∈ g.units) (hv : v ∈ d.values) (ht : t ∈ v.dsts)
    (hset : planned d walkTo placed (.routeTo u v.id t) = true) : (u, v.src) ∈ placed := by
  obtain ⟨w, hw, hmem⟩ := (planned_routeTo h.design hv ht).mp hset
  rcases (h.direct hv ht hw).routing u hmem with rfl | hr
  · exact h.least.prop.supplied v hv t ht w hw
  · exact absurd hr (h.graph.not_routing_of_unit hu)

/-- A port that carries a planned flow drives a unit where the consumer is planned, and is its port for the operand. -/
theorem consumer_of_port {i : Nat} {q : Node} (hv : v ∈ d.values) (ht : t ∈ v.dsts) (hq : g.node? n = some q)
    (hkind : q.kind = .operandPort i) (hu : u ∈ g.fanout n) (hset : planned d walkTo placed (.routeTo n v.id t) = true) :
    (u, t.op) ∈ placed ∧ i = t.operand := by
  obtain ⟨w, hw, hmem⟩ := (planned_routeTo h.design hv ht).mp hset
  have hwalk := h.direct hv ht hw
  have hlast := hwalk.eq_last_of_port h.graph h.ports hmem hq hkind
  obtain ⟨q', hq', hkind'⟩ := hwalk.port
  rw [← hlast, hq] at hq'
  cases hq'
  rw [hlast, hwalk.fanout_last h.ports, List.mem_singleton] at hu
  exact ⟨hu ▸ hw, NodeKind.operandPort.inj (hkind.symm.trans hkind')⟩

/-! ## The families hold -/

theorem opsPlaced : Family.OpsPlaced g d (planned d walkTo placed) := by
  intro op hop
  have hmodel := h.accepted.placed op hop
  obtain ⟨u, hu⟩ := h.least.prop.total op hop
  have hunit := (mem_hosts.mp (h.least.prop.hosts hu)).1
  split
  · exact ⟨u, hunit, planned_place.mpr hu⟩
  · next hdup =>
    rw [if_neg hdup] at hmodel
    refine Nat.le_antisymm ?_ (List.countP_pos_iff.mpr ⟨u, hunit, planned_place.mpr hu⟩)
    rw [← hmodel]
    exact List.countP_mono_left fun _ _ => h.isSet

theorem unitsExclusive : Family.UnitsExclusive g d (planned d walkTo placed) := fun u hu =>
  Nat.le_trans (List.countP_mono_left fun _ _ => h.isSet) (h.accepted.exclusive u hu)

theorem placementsSupported : Family.PlacementsSupported g d (planned d walkTo placed) := fun u hu op hop hnot =>
  Bool.eq_false_iff.mpr fun hplace => absurd (h.isSet hplace) (Bool.eq_false_iff.mp (h.accepted.supported u hu op hop hnot))

theorem nodesExclusive : Family.NodesExclusive g d (planned d walkTo placed) := fun n hn =>
  Nat.le_trans (List.countP_mono_left fun _ _ => h.isSet) (h.accepted.nodes n hn)

/-- A placed operation is supported. -/
theorem supports {op : Operation} (hop : op ∈ d.operations) (hu : (u, op.id) ∈ placed) : Family.supports g u op = true := by
  by_contra hnot
  have hunit := (mem_hosts.mp (h.least.prop.hosts hu)).1
  have hoff := h.placementsSupported u hunit op hop (Bool.eq_false_iff.mpr hnot)
  rw [planned_place.mpr hu] at hoff
  cases hoff

theorem netsStartAtSources : Family.NetsStartAtSources g d (planned d walkTo placed) := by
  intro u hu v hv src hsrc
  have hid := h.design.op_id hsrc
  have hsrcMem := List.mem_of_getElem? hsrc
  have hstart {t : Terminal} (ht : t ∈ v.dsts) (hset : planned d walkTo placed (.routeTo u v.id t) = true) :
      (u, src.id) ∈ placed := hid ▸ h.source_of_unit hu hv ht hset
  split
  · split
    · refine Bool.eq_iff_iff.mpr ⟨fun hroute => ?_, fun hplace => ?_⟩
      · obtain ⟨t, ht, hset⟩ := (planned_route h.design hv).mp hroute
        exact planned_place.mpr (hstart ht hset)
      · obtain ⟨t, ht, w, hw, rfl⟩ := Sustained.used h.design h.least hv (hid ▸ planned_place.mp hplace)
        exact (planned_route h.design hv).mpr ⟨t, ht, (planned_routeTo h.design hv ht).mpr
          ⟨w, hw, (h.direct hv ht hw).walks.mem_start⟩⟩
    · next hdup =>
      refine fun t ht => Bool.eq_iff_iff.mpr ⟨fun hset => planned_place.mpr (hstart ht hset), fun hplace => ?_⟩
      obtain ⟨dst, hdst, -⟩ := h.design.dst hv ht
      obtain ⟨w, hw⟩ := h.least.prop.total dst (List.mem_of_getElem? hdst)
      rw [h.design.op_id hdst] at hw
      have hwalk := h.direct hv ht hw
      -- The source has one host only, so the walk to the consumer starts here.
      have hone := h.opsPlaced src hsrcMem
      rw [if_neg hdup] at hone
      have hhead : (walkTo v t w).headD 0 = u := eq_of_countP_le_one (Nat.le_of_eq hone) hwalk.head_mem_units hu
        (planned_place.mpr (hid ▸ h.least.prop.supplied v hv t ht w hw)) hplace
      exact (planned_routeTo h.design hv ht).mpr ⟨w, hw, hhead ▸ hwalk.walks.mem_start⟩
  · next hnot =>
    have hoff {t : Terminal} (ht : t ∈ v.dsts) : planned d walkTo placed (.routeTo u v.id t) = false :=
      Bool.eq_false_iff.mpr fun hset => hnot (h.supports hsrcMem (hstart ht hset))
    refine ⟨Bool.eq_false_iff.mpr fun hroute => ?_, fun t ht => hoff ht⟩
    obtain ⟨t, ht, hset⟩ := (planned_route h.design hv).mp hroute
    exact absurd hset (Bool.eq_false_iff.mp (hoff ht))

theorem flowsEndAtPorts (hhas : ∀ v ∈ d.values, ∀ t ∈ v.dsts, ∀ u ∈ m.hosts g t.op, g.HasPort u t.operand) :
    Family.FlowsEndAtPorts g d (planned d walkTo placed) := by
  rw [Family.flowsEndAtPorts_iff]
  intro u hu node hnode v t ⟨hv, ht⟩ dst hdst
  have hid := h.design.op_id hdst
  have hdstMem := List.mem_of_getElem? hdst
  obtain ⟨node', hnode', hunit⟩ := h.graph.units.mp hu
  obtain rfl : node = node' := Option.some.inj (hnode.symm.trans hnode')
  have hconsumer {i : Nat} {p : NodeId} (hp : node.operandPort? i = some p)
      (hset : planned d walkTo placed (.routeTo p v.id t) = true) : (u, t.op) ∈ placed ∧ i = t.operand := by
    obtain ⟨hfanin, q, hq, hkind⟩ := (h.graph.bound_iff hnode hunit).mp hp
    exact h.consumer_of_port hv ht hq hkind (h.graph.fanin_iff_fanout.mp hfanin) hset
  refine ⟨fun i p hp hi => Bool.eq_false_iff.mpr fun hset => hi (hconsumer hp hset).2, fun p hp => ?_, fun hnone _ => ?_⟩
  · refine Bool.eq_iff_iff.mpr ⟨fun hset => ?_, fun hplace => ?_⟩
    · have hplaced := (hconsumer hp hset).1
      rw [← hid] at hplaced
      exact Bool.and_eq_true_iff.mpr ⟨h.supports hdstMem hplaced, planned_place.mpr hplaced⟩
    · have hplaced := planned_place.mp (Bool.and_eq_true_iff.mp hplace).2
      rw [hid] at hplaced
      have hwalk := h.direct hv ht hplaced
      have hbound := (h.graph.bound_iff hnode hunit).mpr ⟨h.graph.fanin_iff_fanout.mpr hwalk.feeds, hwalk.port⟩
      obtain rfl : p = (walkTo v t u).getLastD 0 := Option.some.inj (hp.symm.trans hbound)
      exact (planned_routeTo h.design hv ht).mpr ⟨u, hplaced, hwalk.walks.getLastD_mem⟩
  · refine Bool.eq_false_iff.mpr fun hplace => ?_
    have hhost := h.least.prop.hosts (planned_place.mp hplace)
    rw [hid] at hhost
    obtain ⟨p, hp⟩ := (h.graph.hasPort_iff hnode hunit).mp (hhas v hv t ht u hhost)
    rw [hnone] at hp
    cases hp

/-- A node on a planned walk that drives a routing node of the flow is followed by it, on one and the same walk. -/
theorem precedes {w : NodeId} (hv : v ∈ d.values) (ht : t ∈ v.dsts) (hn : n ∈ g.routing) (hw : (w, t.op) ∈ placed)
    (hmem : n ∈ walkTo v t w) (hx : x ∈ g.fanin n) (hset : planned d walkTo placed (.routeTo x v.id t) = true) :
    x ∈ walkTo v t w ∧ x ∉ (m.targets g t).toList ∧ m.nextNodes g v.id t x = [n] := by
  obtain ⟨w', hw', hxmem⟩ := (planned_routeTo h.design hv ht).mp hset
  have hwalk := h.direct hv ht hw
  have hwalk' := h.direct hv ht hw'
  have hxn := h.graph.fanin_iff_fanout.mp hx
  have hnot : x ∉ (m.targets g t).toList := fun htarget => by
    rw [← hwalk'.walks.getLastD_of_mem_targets hxmem htarget, hwalk'.fanout_last h.ports, List.mem_singleton] at hxn
    exact h.graph.not_routing_of_unit (hxn ▸ (mem_hosts.mp (h.least.prop.hosts hw')).1) hn
  obtain ⟨y, hy, hnext⟩ := hwalk'.exists_next hxmem hnot
  have hyn : n ∈ m.nextNodes g v.id t x := mem_nextNodes.mpr ⟨hxn, hwalk.carries n hmem⟩
  rw [hnext, List.mem_singleton] at hyn
  subst hyn
  obtain rfl := hwalk.consumer_eq h.ports hwalk' hmem hy
  exact ⟨hxmem, hnot, hnext⟩

theorem inputConnected : Family.Connected d (planned d walkTo placed) g.routing g.fanin := by
  intro n hn v t ⟨hv, ht⟩ hset
  obtain ⟨w, hw, hmem⟩ := (planned_routeTo h.design hv ht).mp hset
  have hwalk := h.direct hv ht hw
  rcases hwalk.walks.exists_prev hmem with rfl | ⟨x, hx, hnot, hxn⟩
  · exact absurd hn (h.graph.not_routing_of_unit hwalk.head_mem_units)
  have hxfanin := h.graph.fanin_iff_fanout.mpr (mem_nextNodes.mp hxn).1
  have hxset := (planned_routeTo h.design hv ht).mpr ⟨w, hw, hx⟩
  obtain ⟨-, -, hxnext⟩ := h.precedes hv ht hn hw hmem hxfanin hxset
  refine countP_eq_one Graph.nodup_fanin hxfanin hxset fun y hy hyset => ?_
  obtain ⟨hymem, hynot, hynext⟩ := h.precedes hv ht hn hw hmem hy hyset
  exact hwalk.walks.prev_unique hymem hx hynot hnot hynext hxnext

theorem outputConnected : Family.Connected d (planned d walkTo placed) (Family.throughNodes g) g.fanout := by
  intro n hn v t ⟨hv, ht⟩ hset
  obtain ⟨w, hw, hmem⟩ := (planned_routeTo h.design hv ht).mp hset
  have hwalk := h.direct hv ht hw
  have hnot : n ∉ (m.targets g t).toList := fun htarget => by
    obtain ⟨q, hq, hkind⟩ := hwalk.port
    rw [hwalk.walks.getLastD_of_mem_targets hmem htarget] at hq
    exact h.graph.not_mem_throughNodes hq hkind hn
  obtain ⟨y, hy, hnext⟩ := hwalk.exists_next hmem hnot
  have hyn := (mem_nextNodes.mp (hnext ▸ List.mem_singleton_self y)).1
  refine countP_eq_one Graph.nodup_fanout hyn ((planned_routeTo h.design hv ht).mpr ⟨w, hw, hy⟩) fun z hz hzset => ?_
  have hzn : z ∈ m.nextNodes g v.id t n := mem_nextNodes.mpr ⟨hz, h.isSet hzset⟩
  rw [hnext, List.mem_singleton] at hzn
  exact hzn

theorem netsAreFlows : Family.NetsAreFlows g d (planned d walkTo placed) := fun _ _ _ hv => planned_route h.design hv

theorem allHold (hhas : ∀ v ∈ d.values, ∀ t ∈ v.dsts, ∀ u ∈ m.hosts g t.op, g.HasPort u t.operand) :
    Family.AllHold g d (planned d walkTo placed) := fun
  | .opPlacement => h.opsPlaced
  | .peExclusivity => h.unitsExclusive
  | .peLegality => h.placementsSupported
  | .routeExclusivity => h.nodesExclusive
  | .initValue => h.netsStartAtSources
  | .portPlacement => h.flowsEndAtPorts hhas
  | .inputConnectivity => h.inputConnected
  | .outputConnectivity => h.outputConnected
  | .routingResourceUsage => h.netsAreFlows

end Plan

/-- From an accepted model a mapping can be made. -/
theorem Accepted.exists_allHold (hm : m.Accepted g d) (hd : d.WellWired) (hg : g.WellWired) (hports : g.Ordinary)
    (hhas : ∀ v ∈ d.values, ∀ t ∈ v.dsts, ∀ u ∈ m.hosts g t.op, g.HasPort u t.operand)
    (hcarry : ∀ u ∈ g.units, ∀ v ∈ d.values, m.carriesFlow u v = true → u ∈ m.hosts g v.src) :
    ∃ δ, Family.AllHold g d δ ∧ ∀ k, δ k = true → m.isSet k = true := by
  have hdirect : ∀ v t u, ∃ nodes, v ∈ d.values → t ∈ v.dsts → u ∈ m.hosts g t.op → m.Direct g v t u nodes := by
    intro v t u
    by_cases hflow : v ∈ d.values ∧ t ∈ v.dsts ∧ u ∈ m.hosts g t.op
    · obtain ⟨hv, ht, hu⟩ := hflow
      obtain ⟨nodes, hnodes⟩ := exists_direct hg hm.arrives (fun u hu => hcarry u hu v hv) hv ht hu (hhas v hv t ht u hu)
      exact ⟨nodes, fun _ _ _ => hnodes⟩
    · exact ⟨[], fun hv ht hu => absurd ⟨hv, ht, hu⟩ hflow⟩
  choose walkTo hwalkTo using hdirect
  have hwalks : ∀ v ∈ d.values, ∀ t ∈ v.dsts, ∀ u ∈ m.hosts g t.op, m.Direct g v t u (walkTo v t u) :=
    fun v hv t ht u hu => hwalkTo v t u hv ht hu
  have hplaced : ∀ op ∈ d.operations, ∃ u, u ∈ m.hosts g op.id := fun op hop => by
    have hplaced := hm.placed op hop
    split at hplaced
    · obtain ⟨u, hu⟩ := hplaced
      exact ⟨u, mem_hosts.mpr hu⟩
    · obtain ⟨u, hu, hplace⟩ := List.countP_pos_iff.mp (Nat.lt_of_lt_of_eq Nat.one_pos hplaced.symm)
      exact ⟨u, mem_hosts.mpr ⟨hu, hplace⟩⟩
  obtain ⟨placed, hmin⟩ := exists_minimal_of_wellFoundedLT _ (exists_sustained hd hplaced hwalks)
  have hplan : m.Plan g d walkTo placed := ⟨hd, hg, hports, hm, hwalks, hmin⟩
  exact ⟨planned d walkTo placed, hplan.allHold hhas, fun k => hplan.isSet⟩

end Model

/-- On a graph in which each operand port drives exactly one unit and nothing else, every mapping passes the check. Conversely, if a
model passes in which each host has a port for every input of its operation and no unit but the hosts of its source carries a
value, then there is a mapping, and it takes no decision that the model does not take. -/
theorem verify_agrees {f : Fabric} {options : GraphOptions} {g : Graph} {d : Design} {operations : SortedMap String String}
    {ties : List NamedTie} {duplicates : SortedSet String} (hg : Graph.build f options = .ok g)
    (hd : Design.new operations ties duplicates = .ok d) (hports : g.Ordinary) (m : Model) :
    (Family.AllHold g d m.isSet → ∃ s, m.verify g d = .ok s) ∧
    ∀ s, m.verify g d = .ok s →
      (∀ op ∈ d.operations, ∀ u ∈ m.hosts g op.id, ∀ input ∈ op.inputs.toList, g.HasPort u input.1) →
      (∀ u ∈ g.units, ∀ v ∈ d.values, m.carriesFlow u v = true → u ∈ m.hosts g v.src) →
      ∃ δ, Family.AllHold g d δ ∧ ∀ k, δ k = true → m.isSet k = true := by
  have hg := Graph.wellWired_build hg
  have hd := Design.wellWired_new hd
  refine ⟨fun h => ?_, fun s hs hinputs hcarry => ?_⟩
  · exact (Model.verify_ok_iff h hd hg).mpr (Model.arrives_of_portsFeedUnits hd hg h hports.portsFeedUnits)
  · refine (Model.accepted_of_verify hs).exists_allHold hd hg hports (fun v hv t ht u hu => ?_) hcarry
    obtain ⟨dst, hdst, hinput⟩ := hd.dst hv ht
    exact hinputs dst (List.mem_of_getElem? hdst) u ((hd.op_id hdst).symm ▸ hu) _ hinput

/-- The value runs from the source through the port, and the sink carries the net without a flow. -/
def Model.stray : Model :=
  .ofList [(.place 0 0, 1), (.place 1 1, 1), (.route 0 0, 1), (.routeTo 0 0 ⟨1, 0⟩, 1), (.route 2 0, 1), (.routeTo 2 0 ⟨1, 0⟩, 1),
    (.route 1 0, 1)]

/-- No mapping, but it passes the check, and a part of it is one. -/
theorem stray_verify_agrees : ∃ (g : Graph) (d : Design), Graph.build .line {} = .ok g ∧
    Design.new (.ofList [("c", "const"), ("s", "store")]) [⟨"c", "s", 0⟩] ∅ = .ok d ∧ g.Ordinary ∧
    (∃ s, Model.stray.verify g d = .ok s) ∧ ¬ Family.AllHold g d Model.stray.isSet ∧
    ∃ δ, Family.AllHold g d δ ∧ ∀ k, δ k = true → Model.stray.isSet k = true := by
  obtain ⟨g, d, hg, hd⟩ := exists_line
  have hstray : ((Graph.build .line {}).toOption.any fun g =>
      (Design.new (.ofList [("c", "const"), ("s", "store")]) [⟨"c", "s", 0⟩] ∅).toOption.any fun d =>
        decide (g.Ordinary ∧ ((Model.stray.verify g d).isOk = true ∧ ¬ Family.AllHold g d Model.stray.isSet) ∧
          (∀ op ∈ d.operations, ∀ u ∈ Model.stray.hosts g op.id, ∀ input ∈ op.inputs.toList, g.HasPort u input.1) ∧
          ∀ u ∈ g.units, ∀ v ∈ d.values, Model.stray.carriesFlow u v = true → u ∈ Model.stray.hosts g v.src)) = true := by
    decide +kernel
  rw [hg, hd] at hstray
  obtain ⟨hports, ⟨hok, hnot⟩, hinputs, hcarry⟩ := of_decide_eq_true hstray
  cases hverify : Model.stray.verify g d with
  | error e =>
    rw [hverify] at hok
    cases hok
  | ok s => exact ⟨g, d, hg, hd, hports, ⟨s, hverify⟩, hnot, (verify_agrees hg hd hports .stray).2 s hverify hinputs hcarry⟩

end PlaceRoute
