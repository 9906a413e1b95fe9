import Mathlib.Data.List.Perm.Subperm
import PlaceRoute.Proofs.Design.Wiring
import PlaceRoute.Proofs.Graph.Wiring
import PlaceRoute.Proofs.Mapping.Legal
import PlaceRoute.Proofs.Mapping.Walk

/-!
# Mappings without stray flows

The score of a model counts nodes on paths, the solver counts nodes that carry a net. `Model.onPaths` keeps the placement of a
model and the flows on its paths. If the model satisfies all families, so do these decisions (`Model.onPaths_allHold`), and the
solver counts in them what the score counts in the model (`Objective.carried_onPaths`). In the model itself the solver counts
at least that many (`Objective.eval_le_carried`).
-/

namespace PlaceRoute

/-- The nodes that carry a net, among those that an objective counts. -/
def Objective.carried (o : Objective) (g : Graph) (d : Design) (δ : Key → Bool) : Nat :=
  (o.countedNodes g).countP fun n => d.values.any fun v => δ (.route n v.id)

/-- Flows are not followed through operand ports. -/
theorem Graph.WellWired.not_mem_throughNodes {g : Graph} (hg : g.WellWired) {n : NodeId} {q : Node} {i : Nat}
    (hq : g.node? n = some q) (hkind : q.kind = .operandPort i) : n ∉ Family.throughNodes g := by
  intro hn
  obtain ⟨q', hq', rfl⟩ := List.mem_map.mp hn
  obtain ⟨hq', hthrough⟩ := List.mem_filter.mp hq'
  rw [hg.node?_of_mem hq'] at hq
  cases hq
  simp [Node.isOperandPort, hkind] at hthrough

namespace Model

variable {g : Graph} {d : Design} {m : Model} {paths : List RoutedPath} {n : NodeId} {v : Value} {t : Terminal}

/-- The placement of a model and its flows on paths. -/
def onPaths (m : Model) (paths : List RoutedPath) : Key → Bool
  | .place u op => m.isSet (.place u op)
  | .route n v => paths.any fun p => decide (p.value = v ∧ n ∈ p.nodes)
  | .routeTo n v t => paths.any fun p => decide (p.value = v ∧ p.terminal = t ∧ n ∈ p.nodes)

theorem onPaths_routeTo {v : ValueId} : m.onPaths paths (.routeTo n v t) = true ↔
    ∃ p ∈ paths, p.value = v ∧ p.terminal = t ∧ n ∈ p.nodes := by
  simp only [onPaths, List.any_eq_true, decide_eq_true_eq]

theorem onPaths_route {v : ValueId} : m.onPaths paths (.route n v) = true ↔ ∃ p ∈ paths, p.value = v ∧ n ∈ p.nodes := by
  simp only [onPaths, List.any_eq_true, decide_eq_true_eq]

theorem mem_hosts {op : OpId} {u : NodeId} : u ∈ m.hosts g op ↔ u ∈ g.units ∧ m.isSet (.place u op) = true :=
  List.mem_filter

theorem mem_nextNodes {v : ValueId} {x : NodeId} :
    x ∈ m.nextNodes g v t n ↔ x ∈ g.fanout n ∧ m.isSet (.routeTo x v t) = true := List.mem_filter

theorem mem_targets {x : NodeId} : x ∈ m.targets g t ↔
    ∃ u ∈ m.hosts g t.op, ∃ node, g.node? u = some node ∧ node.operandPort? t.operand = some x := by
  unfold targets
  rw [SortedSet.mem_ofList, List.mem_filterMap]
  exact exists_congr fun u => and_congr_right fun _ => Option.bind_eq_some_iff

namespace Traced

variable (htr : m.Traced g d paths)
include htr

/-- A node on a path carries its flow. -/
theorem isSet {p : RoutedPath} (hp : p ∈ paths) : ∀ n ∈ p.nodes, m.isSet (.routeTo n p.value p.terminal) = true := by
  obtain ⟨v, -, hpv, -, u, -, hset, hwalk⟩ := htr.walks p hp
  rw [hpv]
  exact hwalk.forall_mem hset fun x y _ hy => (mem_nextNodes.mp hy).2

/-- A node on a path is a node of the graph. -/
theorem has (hg : g.WellWired) {p : RoutedPath} (hp : p ∈ paths) : ∀ n ∈ p.nodes, g.Has n := by
  obtain ⟨v, -, -, -, u, hu, -, hwalk⟩ := htr.walks p hp
  exact hwalk.forall_mem (hg.has_of_unit (mem_hosts.mp hu).1) fun x y _ hy => hg.has_fanout (mem_nextNodes.mp hy).1

/-- Decisions on paths are decisions of the model. -/
theorem routeTo_of_onPaths (h : m.onPaths paths (.routeTo n v.id t) = true) : m.isSet (.routeTo n v.id t) = true := by
  obtain ⟨p, hp, hpv, rfl, hn⟩ := onPaths_routeTo.mp h
  exact hpv ▸ htr.isSet hp n hn

/-- A net on a path is one of its flows. -/
theorem onPaths_route_iff (hd : d.WellWired) (hv : v ∈ d.values) : m.onPaths paths (.route n v.id) = true ↔
    ∃ t ∈ v.dsts, m.onPaths paths (.routeTo n v.id t) = true := by
  simp only [onPaths_route, onPaths_routeTo]
  constructor
  · rintro ⟨p, hp, hpv, hn⟩
    obtain ⟨v', hv', hpv', ht, -⟩ := htr.walks p hp
    obtain rfl : v' = v := hd.value_inj hv' hv (hpv'.symm.trans hpv)
    exact ⟨p.terminal, ht, p, hp, hpv, rfl, hn⟩
  · rintro ⟨t, -, p, hp, hpv, -, hn⟩
    exact ⟨p, hp, hpv, hn⟩

/-- Where nets are on with their flows, a net on a path is one of the model. -/
theorem route_of_onPaths (hd : d.WellWired) (hg : g.WellWired) (hnets : Family.FlowsHaveNets g d m.isSet)
    (hv : v ∈ d.values) (h : m.onPaths paths (.route n v.id) = true) : m.isSet (.route n v.id) = true := by
  obtain ⟨t, ht, hflow⟩ := (htr.onPaths_route_iff hd hv).mp h
  obtain ⟨p, hp, -, -, hn⟩ := onPaths_routeTo.mp hflow
  exact hnets n (hg.mem_ids.mpr (htr.has hg hp n hn)) v hv t ht (htr.routeTo_of_onPaths hflow)

/-! ## The families hold on the paths -/

theorem onPaths_nodesExclusive (hd : d.WellWired) (hg : g.WellWired) (hnets : Family.NetsAreFlows g d m.isSet)
    (h : Family.NodesExclusive g d m.isSet) : Family.NodesExclusive g d (m.onPaths paths) := fun n hn =>
  Nat.le_trans (List.countP_mono_left fun _ hv => htr.route_of_onPaths hd hg hnets.flowsHaveNets hv) (h n hn)

/-- A host of a source carries its net on a path if it carries it at all. -/
theorem onPaths_of_host {u : NodeId} (hu : u ∈ g.units) (hplace : m.isSet (.place u v.src) = true) (hv : v ∈ d.values)
    (ht : t ∈ v.dsts) (hflow : m.isSet (.routeTo u v.id t) = true) : m.onPaths paths (.routeTo u v.id t) = true := by
  obtain ⟨p, hp, hpv, hpt, hmem⟩ := htr.starts v hv t ht u (mem_hosts.mpr ⟨hu, hplace⟩) hflow
  exact onPaths_routeTo.mpr ⟨p, hp, hpv, hpt, hmem⟩

theorem onPaths_netsStartAtSources (hd : d.WellWired) (hg : g.WellWired) (hnets : Family.NetsAreFlows g d m.isSet)
    (h : Family.NetsStartAtSources g d m.isSet) : Family.NetsStartAtSources g d (m.onPaths paths) := by
  intro u hu v hv src hsrc
  have hmodel := h u hu v hv src hsrc
  have hid : src.id = v.src := hd.op_id hsrc
  have hroute : m.onPaths paths (.route u v.id) = true → m.isSet (.route u v.id) = true :=
    htr.route_of_onPaths hd hg hnets.flowsHaveNets hv
  split at hmodel
  · next hsupports =>
    rw [if_pos hsupports]
    split at hmodel
    · next hdup =>
      rw [if_pos hdup]
      refine Bool.eq_iff_iff.mpr ⟨fun hr => hmodel.symm.trans (hroute hr), fun hplace => ?_⟩
      have hplace : m.isSet (.place u src.id) = true := hplace
      obtain ⟨t, ht, hflow⟩ := (hnets u (hg.mem_ids.mpr (hg.has_of_unit hu)) v hv).mp (hmodel.trans hplace)
      exact (htr.onPaths_route_iff hd hv).mpr ⟨t, ht, htr.onPaths_of_host hu (hid ▸ hplace) hv ht hflow⟩
    · next hdup =>
      rw [if_neg hdup]
      intro t ht
      refine Bool.eq_iff_iff.mpr ⟨fun hr => (hmodel t ht).symm.trans (htr.routeTo_of_onPaths hr), fun hplace => ?_⟩
      have hplace : m.isSet (.place u src.id) = true := hplace
      exact htr.onPaths_of_host hu (hid ▸ hplace) hv ht ((hmodel t ht).trans hplace)
  · next hsupports =>
    rw [if_neg hsupports]
    refine ⟨Bool.eq_false_iff.mpr fun hr => ?_, fun t ht => Bool.eq_false_iff.mpr fun hr => ?_⟩
    · exact absurd (hroute hr) (Bool.eq_false_iff.mp hmodel.1)
    · exact absurd (htr.routeTo_of_onPaths hr) (Bool.eq_false_iff.mp (hmodel.2 t ht))

theorem onPaths_flowsEndAtPorts (hd : d.WellWired) (h : Family.FlowsEndAtPorts g d m.isSet) :
    Family.FlowsEndAtPorts g d (m.onPaths paths) := by
  intro u hu n hn v t hflow dst hdst
  obtain ⟨hstray, hport⟩ := h u hu n hn v t hflow dst hdst
  have hid : dst.id = t.op := hd.op_id hdst
  refine ⟨fun i p hp hi => Bool.eq_false_iff.mpr fun hr => ?_, ?_⟩
  · exact absurd (htr.routeTo_of_onPaths hr) (Bool.eq_false_iff.mp (hstray i p hp hi))
  · cases hop : n.operandPort? t.operand with
    | none =>
      rw [hop] at hport
      exact hport
    | some p =>
      rw [hop] at hport
      dsimp only at hport ⊢
      refine Bool.eq_iff_iff.mpr ⟨fun hr => hport ▸ htr.routeTo_of_onPaths hr, fun hplace => ?_⟩
      have hplace : m.isSet (.place u dst.id) = true := (Bool.and_eq_true_iff.mp hplace).2
      have htarget : p ∈ m.targets g t := mem_targets.mpr ⟨u, mem_hosts.mpr ⟨hu, hid ▸ hplace⟩, n, hn, hop⟩
      obtain ⟨q, hq, hqv, hqt, hmem⟩ := htr.ends v hflow.1 t hflow.2 p htarget
      exact onPaths_routeTo.mpr ⟨q, hq, hqv, hqt, hmem⟩

/-- On paths a node has its one neighbour if some neighbour is on the path. -/
theorem onPaths_connected {nodes : List NodeId} {neighbours : NodeId → List NodeId}
    (h : Family.Connected d m.isSet nodes neighbours)
    (hnext : ∀ n ∈ nodes, ∀ p ∈ paths, n ∈ p.nodes → ∃ x ∈ neighbours n, x ∈ p.nodes) :
    Family.Connected d (m.onPaths paths) nodes neighbours := by
  intro n hn v t hflow hset
  obtain ⟨p, hp, hpv, hpt, hmem⟩ := onPaths_routeTo.mp hset
  obtain ⟨x, hx, hxmem⟩ := hnext n hn p hp hmem
  refine Nat.le_antisymm ?_ (List.countP_pos_iff.mpr ⟨x, hx, onPaths_routeTo.mpr ⟨p, hp, hpv, hpt, hxmem⟩⟩)
  rw [← h n hn v t hflow (htr.routeTo_of_onPaths hset)]
  exact List.countP_mono_left fun _ _ => htr.routeTo_of_onPaths

/-- A routing node on a path is driven from the path. -/
theorem exists_fanin (hg : g.WellWired) (hn : n ∈ g.routing) {p : RoutedPath} (hp : p ∈ paths) (hmem : n ∈ p.nodes) :
    ∃ x ∈ g.fanin n, x ∈ p.nodes := by
  obtain ⟨v, -, -, -, u, hu, -, hwalk⟩ := htr.walks p hp
  rcases hwalk.exists_prev hmem with rfl | ⟨x, hx, -, hnext⟩
  · exact absurd hn (hg.not_routing_of_unit (mem_hosts.mp hu).1)
  · exact ⟨x, hg.fanin_iff_fanout.mpr (mem_nextNodes.mp hnext).1, hx⟩

/-- A node on a path that is no operand port drives the path. -/
theorem exists_fanout (hg : g.WellWired) (hn : n ∈ Family.throughNodes g) {p : RoutedPath} (hp : p ∈ paths)
    (hmem : n ∈ p.nodes) : ∃ x ∈ g.fanout n, x ∈ p.nodes := by
  obtain ⟨v, -, -, -, u, -, -, hwalk⟩ := htr.walks p hp
  rcases hwalk.exists_next hmem with htarget | ⟨x, hx, hnext⟩
  · obtain ⟨w, hw, node, hnode, hport⟩ := mem_targets.mp (SortedSet.mem_toList.mp htarget)
    obtain ⟨node', hnode', hunit⟩ := hg.units.mp (mem_hosts.mp hw).1
    rw [hnode] at hnode'
    cases hnode'
    obtain ⟨-, q, hq, hkind⟩ := (hg.bound_iff hnode hunit).mp hport
    exact absurd hn (hg.not_mem_throughNodes hq hkind)
  · exact ⟨x, (mem_nextNodes.mp hnext).1, hx⟩

end Traced

/-- The decisions on the paths of a mapping are a mapping. -/
theorem onPaths_allHold (hd : d.WellWired) (hg : g.WellWired) (h : Family.AllHold g d m.isSet)
    (htr : m.Traced g d paths) : Family.AllHold g d (m.onPaths paths) := by
  have hnets := h .routingResourceUsage
  intro f
  cases f with
  | opPlacement => exact h .opPlacement
  | peExclusivity => exact h .peExclusivity
  | peLegality => exact h .peLegality
  | routeExclusivity => exact htr.onPaths_nodesExclusive hd hg hnets (h .routeExclusivity)
  | initValue => exact htr.onPaths_netsStartAtSources hd hg hnets (h .initValue)
  | portPlacement => exact htr.onPaths_flowsEndAtPorts hd (h .portPlacement)
  | inputConnectivity => exact htr.onPaths_connected (h .inputConnectivity) fun n hn p hp => htr.exists_fanin hg hn hp
  | outputConnectivity => exact htr.onPaths_connected (h .outputConnectivity) fun n hn p hp => htr.exists_fanout hg hn hp
  | routingResourceUsage => exact fun n _ v hv => htr.onPaths_route_iff hd hv

end Model

/-! ## Scores and counts -/

namespace Objective

variable {o : Objective} {g : Graph} {d : Design} {m : Model} {c : Nat} {n : NodeId}

/-- The counted nodes on paths. -/
def score (o : Objective) (g : Graph) (paths : List RoutedPath) : Nat :=
  (SortedSet.ofList (paths.flatMap (·.nodes))).toList.countP fun n => (g.node? n).any o.filter.accepts

theorem eval_eq_ok (h : o.eval g d m = .ok c) : ∃ paths, m.tracePaths g d = .ok paths ∧ c = o.score g paths := by
  unfold eval at h
  obtain ⟨paths, hpaths, h⟩ := bind_eq_ok h
  exact ⟨paths, hpaths, (Except.ok.inj h).symm⟩

/-- The score is a matter of the decisions. -/
theorem eval_congr {m' : Model} (h : m'.isSet = m.isSet) : o.eval g d m' = o.eval g d m := by
  unfold eval
  rw [Model.tracePaths_congr h]

theorem mem_countedNodes (hg : g.WellWired) : n ∈ o.countedNodes g ↔ (g.node? n).any o.filter.accepts = true := by
  unfold countedNodes
  rw [List.mem_map, Option.any_eq_true]
  constructor
  · rintro ⟨node, hnode, rfl⟩
    obtain ⟨hmem, haccepts⟩ := List.mem_filter.mp hnode
    exact ⟨node, hg.node?_of_mem hmem, haccepts⟩
  · rintro ⟨node, hnode, haccepts⟩
    exact ⟨node, List.mem_filter.mpr ⟨Array.mem_toList_iff.mpr (Array.mem_of_getElem? hnode), haccepts⟩, hg.id hnode⟩

theorem nodup_countedNodes (hg : g.WellWired) : (o.countedNodes g).Nodup :=
  (List.filter_sublist.map _).nodup hg.nodup_ids

/-- The counted nodes that carry a net are a list without repetitions; so are the counted nodes on paths. -/
theorem score_eq_length (paths : List RoutedPath) : o.score g paths =
    ((SortedSet.ofList (paths.flatMap (·.nodes))).toList.filter fun n => (g.node? n).any o.filter.accepts).length :=
  List.countP_eq_length_filter

/-- On the paths of a model the solver counts what the score counts. -/
theorem carried_onPaths (hg : g.WellWired) {paths : List RoutedPath} (htr : m.Traced g d paths) :
    o.carried g d (m.onPaths paths) = o.score g paths := by
  unfold carried
  rw [List.countP_eq_length_filter, score_eq_length]
  refine List.Perm.length_eq ((List.perm_ext_iff_of_nodup ((nodup_countedNodes hg).filter _)
    ((SortedSet.nodup _).filter _)).mpr fun n => ?_)
  rw [List.mem_filter, List.mem_filter, mem_countedNodes hg, SortedSet.mem_toList, SortedSet.mem_ofList, and_comm,
    List.mem_flatMap]
  refine and_congr_left fun _ => ?_
  simp only [List.any_eq_true, Model.onPaths_route]
  constructor
  · rintro ⟨v, -, p, hp, -, hn⟩
    exact ⟨p, hp, hn⟩
  · rintro ⟨p, hp, hn⟩
    obtain ⟨v, hv, hpv, -⟩ := htr.walks p hp
    exact ⟨v, hv, p, hp, hpv, hn⟩

/-- Where nets are on with their flows, the solver counts at least what the score counts. -/
theorem eval_le_carried (hd : d.WellWired) (hg : g.WellWired) (hnets : Family.FlowsHaveNets g d m.isSet)
    (h : o.eval g d m = .ok c) : c ≤ o.carried g d m.isSet := by
  obtain ⟨paths, hpaths, rfl⟩ := eval_eq_ok h
  have htr := Model.traced hpaths
  rw [← carried_onPaths hg htr]
  refine List.countP_mono_left fun n _ hn => ?_
  obtain ⟨v, hv, hroute⟩ := List.any_eq_true.mp hn
  exact List.any_eq_true.mpr ⟨v, hv, htr.route_of_onPaths hd hg hnets hv hroute⟩

/-- A score of a mapping is a count of a mapping with the same placement. -/
theorem exists_carried_eq (hd : d.WellWired) (hg : g.WellWired) (h : Family.AllHold g d m.isSet)
    (heval : o.eval g d m = .ok c) : ∃ δ, Family.AllHold g d δ ∧ o.carried g d δ = c ∧
      ∀ u op, δ (.place u op) = m.isSet (.place u op) := by
  obtain ⟨paths, hpaths, rfl⟩ := eval_eq_ok heval
  have htr := Model.traced hpaths
  exact ⟨m.onPaths paths, Model.onPaths_allHold hd hg h htr, carried_onPaths hg htr, fun u op => rfl⟩

end Objective
end PlaceRoute
