import Mathlib.Data.List.Perm.Subperm
import PlaceRoute.Proofs.Design.Wiring
import PlaceRoute.Proofs.Graph.Wiring
import PlaceRoute.Proofs.Mapping.Legal
import PlaceRoute.Proofs.Mapping.Prune

/-!
# Flows that arrive

`Model.Arrives`: followed node by node from every host of its source, a flow meets an operand port at which its consumer stands,
and every such port ends such a walk. A mapping passes the check exactly if all its flows arrive (`Model.verify_ok_iff`); no walk
of a mapping meets a node twice, so the checker's fuel is enough (`Model.length_le_of_walks`).
-/

namespace PlaceRoute

namespace Model

section
variable {g : Graph} {d : Design} {m : Model} {v : Value} {t : Terminal} {n x y z : NodeId} {nodes : List NodeId}

/-! ## Flows of a mapping -/

/-- Followed node by node from every host of its source that carries it, a flow meets an operand port of a host of its consumer,
and every such port ends such a walk. -/
structure FlowArrives (g : Graph) (m : Model) (v : Value) (t : Terminal) : Prop where
  walks : ∀ u ∈ m.hosts g v.src, m.isSet (.routeTo u v.id t) = true →
    ∃ nodes, Walks (m.nextNodes g v.id t) (m.targets g t).toList u nodes
  ends : ∀ port ∈ m.targets g t, ∃ u ∈ m.hosts g v.src, m.isSet (.routeTo u v.id t) = true ∧
    ∃ nodes, Walks (m.nextNodes g v.id t) (m.targets g t).toList u nodes ∧ nodes.getLastD 0 = port

/-- A flow that the checker traces arrives. -/
theorem flowArrives_of_traceFlow {paths : List RoutedPath} (h : m.traceFlow g d v t = .ok paths) : m.FlowArrives g v t := by
  obtain ⟨hmap, hends⟩ := traceFlow_eq_ok_iff.mp h
  refine ⟨fun u hu hset => ?_, fun port hport => ?_⟩
  · obtain ⟨p, hp⟩ := exists_of_mapM hmap (List.mem_filter.mpr ⟨hu, hset⟩)
    obtain ⟨nodes, hnodes, -⟩ := bind_eq_ok hp
    exact ⟨nodes, (walk_eq_ok_iff.mp hnodes).1⟩
  · obtain ⟨p, hp, rfl⟩ := List.mem_map.mp (hends port hport)
    obtain ⟨-, -, u, hu, hset, hwalk⟩ := (mem_traceFlow h).mp hp
    exact ⟨u, hu, hset, p.nodes, (walk_eq_ok_iff.mp hwalk).1, rfl⟩

/-- A flow that arrives is traced if its walks are no longer than the checker's fuel. -/
theorem FlowArrives.traceFlow_ok (harrives : m.FlowArrives g v t) (hlength : ∀ u ∈ m.hosts g v.src,
    m.isSet (.routeTo u v.id t) = true → ∀ nodes, Walks (m.nextNodes g v.id t) (m.targets g t).toList u nodes →
      nodes.length ≤ g.routing.length + 2) : ∃ paths, m.traceFlow g d v t = .ok paths := by
  obtain ⟨paths, hmap⟩ := mapM_ok (f := fun source => do
      let nodes ← m.walk g d v.id t (m.targets g t).toList (g.routing.length + 1) source
      return (⟨v.id, t, nodes⟩ : RoutedPath)) (l := (m.hosts g v.src).filter fun u => m.isSet (.routeTo u v.id t))
    fun u hu => by
      obtain ⟨hu, hset⟩ := List.mem_filter.mp hu
      obtain ⟨nodes, hnodes⟩ := harrives.walks u hu hset
      exact ⟨⟨v.id, t, nodes⟩, by rw [walk_eq_ok_iff.mpr ⟨hnodes, hlength u hu hset nodes hnodes⟩]; rfl⟩
  refine ⟨paths, traceFlow_eq_ok_iff.mpr ⟨hmap, fun port hport => ?_⟩⟩
  obtain ⟨u, hu, hset, nodes, hnodes, rfl⟩ := harrives.ends port hport
  refine List.mem_map.mpr ⟨⟨v.id, t, nodes⟩, (mem_mapM hmap).mpr ⟨u, List.mem_filter.mpr ⟨hu, hset⟩, ?_⟩, rfl⟩
  rw [walk_eq_ok_iff.mpr ⟨hnodes, hlength u hu hset nodes hnodes⟩]
  rfl

theorem tracePaths_ok (h : ∀ v ∈ d.values, ∀ t ∈ v.dsts, ∃ paths, m.traceFlow g d v t = .ok paths) :
    ∃ paths, m.tracePaths g d = .ok paths := by
  obtain ⟨byValue, hvalues⟩ := mapM_ok (f := fun v => do
    return (← v.dsts.mapM (m.traceFlow g d v)).flatten) (l := d.values) fun v hv => by
      obtain ⟨byFlow, hflows⟩ := mapM_ok (f := m.traceFlow g d v) (l := v.dsts) fun t ht => h v hv t ht
      exact ⟨byFlow.flatten, by rw [hflows]; rfl⟩
  exact ⟨byValue.flatten, by unfold tracePaths; rw [hvalues]; rfl⟩

/-- All flows arrive. -/
def Arrives (g : Graph) (d : Design) (m : Model) : Prop := ∀ v ∈ d.values, ∀ t ∈ v.dsts, m.FlowArrives g v t

/-- Whether flows arrive is a matter of the decisions. -/
theorem Arrives.congr {m' : Model} (h : m'.isSet = m.isSet) (harrives : m'.Arrives g d) : m.Arrives g d := by
  intro v hv t ht
  obtain ⟨hwalks, hends⟩ := harrives v hv t ht
  rw [nextNodes_congr h, targets_congr h, hosts_congr h, h] at hwalks hends
  exact ⟨hwalks, hends⟩

/-- Where flows end at ports, a node that carries the flow and drives a unit is a target. -/
theorem mem_targets_of_feeds (hd : d.WellWired) (hg : g.WellWired) (h : Family.FlowsEndAtPorts g d m.isSet)
    (hv : v ∈ d.values) (ht : t ∈ v.dsts) {u : NodeId} (hu : u ∈ g.units) (hx : u ∈ g.fanout x)
    (hset : m.isSet (.routeTo x v.id t) = true) : x ∈ m.targets g t := by
  obtain ⟨node, hnode, hunit⟩ := hg.units.mp hu
  have hfanin := hg.fanin_iff_fanout.mpr hx
  obtain ⟨i, q, hq, hkind⟩ := hg.driver_of_unit hu hfanin
  have hbound := (hg.bound_iff hnode hunit).mpr ⟨hfanin, q, hq, hkind⟩
  obtain ⟨dst, hdst, -⟩ := hd.dst hv ht
  obtain ⟨hstray, hport⟩ := h u hu node hnode v t ⟨hv, ht⟩ dst hdst
  have hi : i = t.operand := by
    by_contra hne
    rw [hstray i x hbound hne] at hset
    cases hset
  rw [hi] at hbound
  rw [hbound] at hport
  dsimp only at hport
  rw [hset] at hport
  have hplace := (Bool.and_eq_true_iff.mp hport.symm).2
  exact mem_targets.mpr ⟨u, mem_hosts.mpr ⟨hu, hd.op_id hdst ▸ hplace⟩, node, hnode, hbound⟩

section
variable (hd : d.WellWired) (hg : g.WellWired) (h : Family.AllHold g d m.isSet) (hv : v ∈ d.values) (ht : t ∈ v.dsts)
include hd hg h hv ht

/-- A target is an operand port and carries the flow. -/
theorem carries_of_mem_targets (hx : x ∈ m.targets g t) :
    m.isSet (.routeTo x v.id t) = true ∧ ∃ q, g.node? x = some q ∧ q.kind = .operandPort t.operand := by
  obtain ⟨u, hu, node, hnode, hport⟩ := mem_targets.mp hx
  obtain ⟨hunit, hplace⟩ := mem_hosts.mp hu
  obtain ⟨node', hnode', hisUnit⟩ := hg.units.mp hunit
  obtain rfl : node = node' := Option.some.inj (hnode.symm.trans hnode')
  obtain ⟨dst, hdst, -⟩ := hd.dst hv ht
  have hid := hd.op_id hdst
  obtain ⟨-, hcarries⟩ := h .portPlacement u hunit node hnode v t ⟨hv, ht⟩ dst hdst
  rw [hport] at hcarries
  have hsupports : Family.supports g u dst = true := by
    by_contra hnot
    have hoff := h .peLegality u hunit dst (List.mem_of_getElem? hdst) (Bool.eq_false_iff.mpr hnot)
    rw [hid, hplace] at hoff
    cases hoff
  refine ⟨?_, ((hg.bound_iff hnode hisUnit).mp hport).2⟩
  rw [hcarries, hsupports, hid, hplace]
  rfl

omit hd in
/-- A routing node that carries the flow has it from one node. -/
theorem prev_unique (hz : z ∈ g.routing) (hx : m.isSet (.routeTo x v.id t) = true) (hy : m.isSet (.routeTo y v.id t) = true)
    (hxz : z ∈ m.nextNodes g v.id t x) (hyz : z ∈ m.nextNodes g v.id t y) : x = y := by
  obtain ⟨hxz, hset⟩ := mem_nextNodes.mp hxz
  have hone := h .inputConnectivity z hz v t ⟨hv, ht⟩ hset
  rw [List.countP_eq_length_filter] at hone
  obtain ⟨w, hw⟩ := List.length_eq_one_iff.mp hone
  have hmem {x : NodeId} (hx : m.isSet (.routeTo x v.id t) = true) (hxz : z ∈ g.fanout x) : x = w := by
    rw [← List.mem_singleton, ← hw]
    exact List.mem_filter.mpr ⟨hg.fanin_iff_fanout.mpr hxz, hx⟩
  rw [hmem hx hxz, hmem hy (mem_nextNodes.mp hyz).1]

/-- Before its target a flow goes on to routing nodes only. -/
theorem next_mem_routing (hx : m.isSet (.routeTo x v.id t) = true) (hnot : x ∉ m.targets g t)
    (hz : z ∈ m.nextNodes g v.id t x) : z ∈ g.routing := by
  obtain ⟨hxz, -⟩ := mem_nextNodes.mp hz
  refine (hg.unit_or_routing (hg.has_fanout hxz)).resolve_left fun hu => hnot ?_
  exact mem_targets_of_feeds hd hg (h .portPlacement) hv ht hu hxz hx

/-- A walk of a mapping is no longer than the checker's fuel. -/
theorem length_le_of_walks {u : NodeId} (hu : u ∈ g.units) (hset : m.isSet (.routeTo u v.id t) = true)
    (hwalk : Walks (m.nextNodes g v.id t) (m.targets g t).toList u nodes) : nodes.length ≤ g.routing.length + 1 := by
  have hcarries := hwalk.forall_mem hset fun _ _ _ hy => (mem_nextNodes.mp hy).2
  have hrouting {x z : NodeId} (hx : x ∈ nodes) (hnot : x ∉ (m.targets g t).toList) (hz : z ∈ m.nextNodes g v.id t x) :
      z ∈ g.routing := next_mem_routing hd hg h hv ht (hcarries x hx) (mt SortedSet.mem_toList.mpr hnot) hz
  have hsub : nodes ⊆ u :: g.routing := fun x hx => by
    rcases hwalk.exists_prev hx with rfl | ⟨y, hy, hnot, hxy⟩
    · exact List.mem_cons_self
    · exact List.mem_cons_of_mem _ (hrouting hy hnot hxy)
  exact (hwalk.nodup.subperm hsub).length_le

/-- The checker traces a flow of a mapping exactly if it arrives. -/
theorem traceFlow_ok_iff : (∃ paths, m.traceFlow g d v t = .ok paths) ↔ m.FlowArrives g v t := by
  constructor
  · rintro ⟨paths, hpaths⟩
    exact flowArrives_of_traceFlow hpaths
  · intro harrives
    refine harrives.traceFlow_ok fun u hu hset nodes hwalk => ?_
    have hlen := length_le_of_walks hd hg h hv ht (mem_hosts.mp hu).1 hset hwalk
    omega

end

/-! ## The check -/

section
variable (hplaced : Family.OpsPlaced g d m.isSet) (hsupported : Family.PlacementsSupported g d m.isSet)
include hplaced hsupported

theorem checkOperation_ok {op : Operation} (hop : op ∈ d.operations) : m.checkOperation g op = .ok () := by
  have hplaced := hplaced op hop
  have hlen : (m.hosts g op.id).length = g.units.countP fun u => m.isSet (.place u op.id) :=
    List.countP_eq_length_filter.symm
  have hone : (m.hosts g op.id).isEmpty = false ∧ ¬ ((m.hosts g op.id).length ≠ 1 ∧ (!op.duplicate) = true) := by
    split at hplaced
    · next hdup =>
      obtain ⟨u, hu, hplace⟩ := hplaced
      refine ⟨?_, by simp [hdup]⟩
      rw [List.isEmpty_eq_false_iff_exists_mem]
      exact ⟨u, mem_hosts.mpr ⟨hu, hplace⟩⟩
    · rw [hplaced] at hlen
      refine ⟨?_, fun hnot => hnot.1 hlen⟩
      rw [List.isEmpty_eq_false_iff, ← List.length_pos_iff]
      omega
  have hsupported : ((m.hosts g op.id).find? fun u => !(g.node? u).any (·.supports op.opcode)) = none := by
    refine List.find?_eq_none.mpr fun u hu hnot => ?_
    obtain ⟨hu, hplace⟩ := mem_hosts.mp hu
    rw [hsupported u hu op hop (by simpa [Family.supports] using hnot)] at hplace
    cases hplace
  unfold checkOperation
  simp only [hone.1, hsupported, if_neg hone.2]
  rfl

theorem checkPlacement_ok (hexclusive : Family.UnitsExclusive g d m.isSet) :
    ∃ placements, m.checkPlacement g d = .ok placements := by
  have hops : d.operations.forM (m.checkOperation g) = .ok () :=
    forM_eq_ok_iff.mpr fun op hop => checkOperation_ok hplaced hsupported hop
  have hunits : g.units.forM (m.checkUnit g d) = .ok () := forM_eq_ok_iff.mpr fun u hu => by
    have hone := hexclusive u hu
    unfold checkUnit
    dsimp only
    rw [List.countP_eq_length_filter] at hone
    rw [List.length_map, if_neg (Nat.not_lt.mpr hone)]
  unfold checkPlacement
  rw [hops, hunits]
  exact ⟨_, rfl⟩

end

theorem checkNodes_ok (hexclusive : Family.NodesExclusive g d m.isSet) (hnets : ∀ n ∈ g.ids, ∀ v ∈ d.values, ∀ t ∈ v.dsts,
    m.isSet (.routeTo n v.id t) = true → m.isSet (.route n v.id) = true) : ∃ nets, m.checkNodes g d = .ok nets := by
  have hnodes : g.ids.forM (m.checkNode g d) = .ok () := forM_eq_ok_iff.mpr fun n hn => by
    have hnets : (d.values.forM fun v => if m.carriesFlow n v && !m.isSet (.route n v.id) then
        throw (.flowWithoutNet (g.nameOf n) v.id) else pure () : Except CheckError Unit) = .ok () :=
      forM_eq_ok_iff.mpr fun v hv => by
        rw [if_neg]
        · rfl
        intro hnot
        obtain ⟨hflow, hroute⟩ := Bool.and_eq_true_iff.mp hnot
        obtain ⟨t, ht, hset⟩ := List.any_eq_true.mp hflow
        rw [hnets n hn v hv t ht hset] at hroute
        cases hroute
    unfold checkNode
    rw [hnets]
    show (if 1 < d.values.countP fun v => m.isSet (.route n v.id) then _ else _ : Except CheckError Unit) = _
    rw [if_neg (Nat.not_lt.mpr (hexclusive n hn))]
    rfl
  unfold checkNodes
  rw [hnodes]
  exact ⟨_, rfl⟩

/-- A mapping passes the check exactly if all its flows arrive. -/
theorem verify_ok_iff (h : Family.AllHold g d m.isSet) (hd : d.WellWired) (hg : g.WellWired) :
    (∃ solution, m.verify g d = .ok solution) ↔ m.Arrives g d := by
  obtain ⟨placements, hplacements⟩ := checkPlacement_ok (h .opPlacement) (h .peLegality) (h .peExclusivity)
  obtain ⟨nets, hnets⟩ := checkNodes_ok (h .routeExclusivity) fun n hn v hv t ht hset =>
    (h .routingResourceUsage n hn v hv).mpr ⟨t, ht, hset⟩
  have htrace : (∃ solution, m.verify g d = .ok solution) ↔ ∃ paths, m.tracePaths g d = .ok paths := by
    unfold verify
    rw [hplacements, hnets]
    cases m.tracePaths g d with
    | ok paths => exact iff_of_true ⟨_, rfl⟩ ⟨_, rfl⟩
    | error e => exact iff_of_false (fun h => nomatch h) fun h => nomatch h
  rw [htrace]
  constructor
  · rintro ⟨paths, hpaths⟩ v hv t ht
    obtain ⟨byValue, hvalues, -⟩ := bind_eq_ok hpaths
    obtain ⟨ofValue, hofValue⟩ := exists_of_mapM hvalues hv
    obtain ⟨byFlow, hflows, -⟩ := bind_eq_ok hofValue
    exact (traceFlow_ok_iff hd hg h hv ht).mp (exists_of_mapM hflows ht)
  · exact fun harrives => tracePaths_ok fun v hv t ht => (traceFlow_ok_iff hd hg h hv ht).mpr (harrives v hv t ht)

end
end Model

end PlaceRoute
