import Mathlib.Data.List.Chain
import Mathlib.Data.List.Sort
import PlaceRoute.Proofs.Graph.Consistent
import PlaceRoute.Proofs.Mapping.Paths

/-!
# Legal layouts pass the check

A `Layout` draws a mapping: units for the operations and a path to every unit that consumes a value. What a legal layout is
(`Layout.Legal`) is said without the checker, and can be decided. Every model that takes exactly the decisions of a legal layout
passes the check, which returns the placements, the paths and the carried nodes of the layout (`verify_layout`): the checker's
walks are the paths (`Layout.Legal.walks`, `Layout.Legal.route_of_walks`), and its fuel is enough for them
(`Layout.Legal.length_le`).
-/

namespace PlaceRoute

/-- A mapping as it is drawn. -/
structure Layout where
  /-- The units of each operation. -/
  hosts : OpId → SortedSet NodeId
  /-- The path of a value to a terminal at a unit. -/
  route : ValueId → Terminal → NodeId → List NodeId

namespace Layout

section
variable (l : Layout) (g : Graph) (d : Design)

/-- The nodes on the paths to a terminal. -/
def flow (v : ValueId) (t : Terminal) : List NodeId := (l.hosts t.op).toList.flatMap (l.route v t)

/-- The nodes on the paths of a value. -/
def net (v : Value) : List NodeId := v.dsts.flatMap (l.flow v.id)

/-- The placements. -/
def placements : SortedMap OpId (List NodeId) := .ofList (d.operations.map fun op => (op.id, (l.hosts op.id).toList))

/-- The routing nodes on the paths of each value, for values that have any. -/
def nets : SortedMap ValueId (SortedSet NodeId) :=
  (SortedMap.ofList (d.values.map fun v =>
    (v.id, SortedSet.ofList (g.routing.filter fun n => decide (n ∈ l.net v))))).filter fun _ nodes => !nodes.isEmpty

/-- The path to each unit that consumes a value. -/
def paths : List RoutedPath :=
  d.values.flatMap fun v => v.dsts.flatMap fun t => (l.hosts t.op).toList.map fun u => ⟨v.id, t, l.route v.id t u⟩

/-- The decisions that the layout takes: its placements, the nodes of its paths, and the nets that these make up. -/
def keys : List Key :=
  d.operations.flatMap (fun op => (l.hosts op.id).toList.map fun u => .place u op.id) ++
    d.values.flatMap fun v => (l.net v).map (fun n => .route n v.id) ++
      v.dsts.flatMap fun t => (l.flow v.id t).map fun n => .routeTo n v.id t

/-- The model of a layout. -/
def model : Model := .ofList ((l.keys d).map (·, 1))

/-- A path leads along wires from a unit of the source to the unit's port for the operand. -/
structure LegalPath (v : Value) (t : Terminal) (u : NodeId) : Prop where
  wires : (l.route v.id t u).IsChain fun x y => y ∈ g.fanout x
  start : ∃ w ∈ (l.hosts v.src).toList, (l.route v.id t u).head? = some w
  stop : ∃ port ∈ (l.route v.id t u).getLast?, (g.node? u).bind (·.operandPort? t.operand) = some port
  /-- In between are routing nodes, and no path to the terminal, this one included, ends at one of them. -/
  between : ∀ n ∈ (l.route v.id t u).tail.dropLast,
    n ∈ g.routing ∧ ∀ w ∈ (l.hosts t.op).toList, (l.route v.id t w).getLast? ≠ some n
  /-- Before its end, one of the nodes that a node drives is on paths to the terminal. -/
  onward : ∀ n ∈ (l.route v.id t u).dropLast, (g.fanout n).countP (fun m => decide (m ∈ l.flow v.id t)) = 1

/-- Operations stand on units of their own that support them, on one each unless they may be duplicated. There is a path to every
unit that consumes a value, and no node is on paths of two values. -/
structure Legal : Prop where
  hosted : ∀ op ∈ d.operations,
    if op.duplicate = true then (l.hosts op.id).toList ≠ [] else (l.hosts op.id).toList.length = 1
  supported : ∀ op ∈ d.operations, ∀ u ∈ (l.hosts op.id).toList, u ∈ g.units ∧ Family.supports g u op = true
  exclusive : ∀ op ∈ d.operations, ∀ op' ∈ d.operations, ∀ u ∈ (l.hosts op.id).toList, u ∈ (l.hosts op'.id).toList → op' = op
  path : ∀ v ∈ d.values, ∀ t ∈ v.dsts, ∀ u ∈ (l.hosts t.op).toList, l.LegalPath g v t u
  apart : ∀ v ∈ d.values, ∀ w ∈ d.values, ∀ n ∈ l.net v, n ∈ l.net w → w = v

end

variable {l : Layout} {g : Graph} {d : Design} {m : Model} {s : Solution} {op : Operation} {v : Value} {t : Terminal}
  {n u w : NodeId} {p : RoutedPath}

instance : Decidable (l.LegalPath g v t u) := decidable_of_iff
  ((l.route v.id t u).IsChain (fun x y => y ∈ g.fanout x) ∧
    (∃ w ∈ (l.hosts v.src).toList, (l.route v.id t u).head? = some w) ∧
    (∃ port ∈ (l.route v.id t u).getLast?, (g.node? u).bind (·.operandPort? t.operand) = some port) ∧
    (∀ n ∈ (l.route v.id t u).tail.dropLast,
      n ∈ g.routing ∧ ∀ w ∈ (l.hosts t.op).toList, (l.route v.id t w).getLast? ≠ some n) ∧
    ∀ n ∈ (l.route v.id t u).dropLast, (g.fanout n).countP (fun m => decide (m ∈ l.flow v.id t)) = 1)
  ⟨fun ⟨hwires, hstart, hstop, hbetween, honward⟩ => ⟨hwires, hstart, hstop, hbetween, honward⟩,
    fun ⟨hwires, hstart, hstop, hbetween, honward⟩ => ⟨hwires, hstart, hstop, hbetween, honward⟩⟩

instance : Decidable (l.Legal g d) := decidable_of_iff
  ((∀ op ∈ d.operations, if op.duplicate = true then (l.hosts op.id).toList ≠ [] else (l.hosts op.id).toList.length = 1) ∧
    (∀ op ∈ d.operations, ∀ u ∈ (l.hosts op.id).toList, u ∈ g.units ∧ Family.supports g u op = true) ∧
    (∀ op ∈ d.operations, ∀ op' ∈ d.operations, ∀ u ∈ (l.hosts op.id).toList, u ∈ (l.hosts op'.id).toList → op' = op) ∧
    (∀ v ∈ d.values, ∀ t ∈ v.dsts, ∀ u ∈ (l.hosts t.op).toList, l.LegalPath g v t u) ∧
    ∀ v ∈ d.values, ∀ w ∈ d.values, ∀ n ∈ l.net v, n ∈ l.net w → w = v)
  ⟨fun ⟨hhosted, hsupported, hexclusive, hpath, hapart⟩ => ⟨hhosted, hsupported, hexclusive, hpath, hapart⟩,
    fun ⟨hhosted, hsupported, hexclusive, hpath, hapart⟩ => ⟨hhosted, hsupported, hexclusive, hpath, hapart⟩⟩

/-! ## The decisions of a layout -/

theorem mem_flow {i : ValueId} : n ∈ l.flow i t ↔ ∃ u ∈ (l.hosts t.op).toList, n ∈ l.route i t u := List.mem_flatMap

theorem mem_net : n ∈ l.net v ↔ ∃ t ∈ v.dsts, n ∈ l.flow v.id t := List.mem_flatMap

theorem mem_paths : p ∈ l.paths d ↔ ∃ v ∈ d.values, ∃ t ∈ v.dsts, ∃ u ∈ (l.hosts t.op).toList, p = ⟨v.id, t, l.route v.id t u⟩ := by
  simp only [paths, List.mem_flatMap, List.mem_map, eq_comm]

theorem mem_keys {k : Key} : k ∈ l.keys d ↔ (∃ op ∈ d.operations, ∃ u ∈ (l.hosts op.id).toList, k = .place u op.id) ∨
    ∃ v ∈ d.values, (∃ n ∈ l.net v, k = .route n v.id) ∨ ∃ t ∈ v.dsts, ∃ n ∈ l.flow v.id t, k = .routeTo n v.id t := by
  simp only [keys, List.mem_append, List.mem_flatMap, List.mem_map, eq_comm]

/-- The model of a layout takes the decisions of the layout and no other. -/
theorem isSet_model {k : Key} : (l.model d).isSet k = true ↔ k ∈ l.keys d := by
  have hget : (l.model d).get? k = if k ∈ l.keys d then some 1 else none := by
    refine getElem?_foldl_insert (fun {v} hv => ?_) fun hnot => ?_
    · obtain ⟨k, hk, heq⟩ := List.mem_map.mp hv
      obtain ⟨rfl, rfl⟩ := Prod.mk.inj heq
      rw [if_pos hk]
    · rw [if_neg fun hk => hnot 1 (List.mem_map_of_mem hk)]
      exact Std.TreeMap.getElem?_emptyc
  unfold Model.isSet
  rw [hget, beq_iff_eq]
  split <;> simp [*]

section
variable (hd : d.WellWired) (hg : g.Consistent) (h : l.Legal g d) (hm : ∀ k, m.isSet k = true ↔ k ∈ l.keys d)

include hm in
theorem isSet_place (hop : op ∈ d.operations) : m.isSet (.place u op.id) = true ↔ u ∈ (l.hosts op.id).toList := by
  rw [hm, mem_keys]
  constructor
  · rintro (⟨op', -, u', hu, heq⟩ | ⟨v, -, ⟨n, -, ⟨⟩⟩ | ⟨t, -, n, -, ⟨⟩⟩⟩)
    obtain ⟨rfl, hid⟩ := Key.place.inj heq
    exact hid ▸ hu
  · exact fun hu => Or.inl ⟨op, hop, u, hu, rfl⟩

include hd hm in
theorem isSet_route (hv : v ∈ d.values) : m.isSet (.route n v.id) = true ↔ n ∈ l.net v := by
  rw [hm, mem_keys]
  constructor
  · rintro (⟨op, -, u, -, ⟨⟩⟩ | ⟨w, hw, ⟨n', hn, heq⟩ | ⟨t, -, n, -, ⟨⟩⟩⟩)
    obtain ⟨rfl, hid⟩ := Key.route.inj heq
    exact hd.value_inj hv hw hid ▸ hn
  · exact fun hn => Or.inr ⟨v, hv, Or.inl ⟨n, hn, rfl⟩⟩

include hm in
theorem isSet_routeTo (hv : v ∈ d.values) (ht : t ∈ v.dsts) : m.isSet (.routeTo n v.id t) = true ↔ n ∈ l.flow v.id t := by
  rw [hm, mem_keys]
  constructor
  · rintro (⟨op, -, u, -, ⟨⟩⟩ | ⟨w, -, ⟨n, -, ⟨⟩⟩ | ⟨t', -, n', hn, heq⟩⟩)
    obtain ⟨rfl, hid, rfl⟩ := Key.routeTo.inj heq
    exact hid ▸ hn
  · exact fun hn => Or.inr ⟨v, hv, Or.inr ⟨t, ht, n, hn, rfl⟩⟩

include hg h hm in
/-- The units of an operation are those of the layout, in order. -/
theorem Legal.hosts_eq (hop : op ∈ d.operations) : m.hosts g op.id = (l.hosts op.id).toList := by
  have hincreasing : (l.hosts op.id).toList.Pairwise (· < ·) :=
    (l.hosts op.id).increasing.imp fun hlt => Nat.compare_eq_lt.mp hlt
  refine (hg.units_increasing.filter _).eq_of_mem_iff hincreasing fun u => ?_
  rw [List.mem_filter, isSet_place hm hop]
  exact and_iff_right_of_imp fun hu => (h.supported op hop u hu).1

end

/-! ## The paths of a layout -/

section
variable (hd : d.WellWired) (hg : g.Consistent) (h : l.Legal g d) (hv : v ∈ d.values) (ht : t ∈ v.dsts)
  (hu : u ∈ (l.hosts t.op).toList)
include hd h hv ht hu

/-- A path starts at a unit. -/
theorem Legal.head_mem_units : ∃ w ∈ (l.hosts v.src).toList, (l.route v.id t u).head? = some w ∧ w ∈ g.units := by
  obtain ⟨w, hw, hhead⟩ := (h.path v hv t ht u hu).start
  obtain ⟨src, hsrc, -⟩ := hd.src hv
  have hsupported := h.supported src (List.mem_of_getElem? hsrc) w (hd.op_id hsrc ▸ hw)
  exact ⟨w, hw, hhead, hsupported.1⟩

include hg

/-- It ends at a routing node. -/
theorem Legal.last_mem_routing (hlast : (l.route v.id t u).getLast? = some n) : n ∈ g.routing := by
  obtain ⟨port, hmem, hport⟩ := (h.path v hv t ht u hu).stop
  obtain rfl : n = port := Option.some.inj (hlast.symm.trans hmem)
  obtain ⟨node, hnode, hport⟩ := Option.bind_eq_some_iff.mp hport
  obtain ⟨dst, hdst, -⟩ := hd.dst hv ht
  have hunit := (h.supported dst (List.mem_of_getElem? hdst) u (hd.op_id hdst ▸ hu)).1
  obtain ⟨node', hnode', hisUnit⟩ := hg.units.mp hunit
  obtain rfl := Option.some.inj (hnode.symm.trans hnode')
  obtain ⟨-, q, hq, hkind⟩ := (hg.bound_iff hnode hisUnit).mp hport
  exact hg.routing.mpr ⟨q, hq, by rw [Node.isUnit, hkind]⟩

/-- After its first node there are routing nodes only. -/
theorem Legal.tail_routing (hn : n ∈ (l.route v.id t u).tail) : n ∈ g.routing := by
  have hne : (l.route v.id t u).tail ≠ [] := List.ne_nil_of_mem hn
  rw [← List.dropLast_concat_getLast hne, List.mem_append, List.mem_singleton] at hn
  rcases hn with hn | rfl
  · exact ((h.path v hv t ht u hu).between n hn).1
  · refine h.last_mem_routing hd hg hv ht hu ?_
    rw [List.getLast_tail, List.getLast?_eq_some_getLast]

/-- A unit on a path is its start. -/
theorem Legal.head_of_unit (hw : w ∈ g.units) (hmem : w ∈ l.route v.id t u) : (l.route v.id t u).head? = some w := by
  generalize hnodes : l.route v.id t u = nodes at hmem ⊢
  cases nodes with
  | nil => cases hmem
  | cons x nodes =>
    rcases List.mem_cons.mp hmem with rfl | hmem
    · rfl
    · have hrouting := h.tail_routing hd hg hv ht hu (n := w) (by rw [hnodes]; exact hmem)
      exact absurd hrouting (hg.not_routing_of_unit hw)

end

section
variable (hd : d.WellWired) (hg : g.Consistent) (h : l.Legal g d) (hm : ∀ k, m.isSet k = true ↔ k ∈ l.keys d)
include hd hg h hm

/-- The hosts of a source are those of the layout. -/
theorem Legal.mem_hosts_src (hv : v ∈ d.values) : w ∈ m.hosts g v.src ↔ w ∈ (l.hosts v.src).toList := by
  obtain ⟨src, hsrc, -⟩ := hd.src hv
  rw [← hd.op_id hsrc, h.hosts_eq hg hm (List.mem_of_getElem? hsrc)]

section
variable (hv : v ∈ d.values) (ht : t ∈ v.dsts)
include hv ht

/-- The targets of a flow are the ends of its paths. -/
theorem Legal.mem_targets : n ∈ m.targets g t ↔ ∃ u ∈ (l.hosts t.op).toList, (l.route v.id t u).getLast? = some n := by
  obtain ⟨dst, hdst, -⟩ := hd.dst hv ht
  unfold Model.targets
  rw [SortedSet.mem_ofList, List.mem_filterMap, ← hd.op_id hdst, h.hosts_eq hg hm (List.mem_of_getElem? hdst), hd.op_id hdst]
  refine exists_congr fun u => and_congr_right fun hu => ?_
  obtain ⟨port, hlast, hport⟩ := (h.path v hv t ht u hu).stop
  rw [hport, ← Option.mem_def.mp hlast]

/-- The checker walks the path to each unit. -/
theorem Legal.walks (hu : u ∈ (l.hosts t.op).toList) (hw : w ∈ g.units) (hmem : w ∈ l.route v.id t u) :
    Walks (m.nextNodes g v.id t) (m.targets g t).toList w (l.route v.id t u) := by
  have hpath := h.path v hv t ht u hu
  have hflow {n : NodeId} (hn : n ∈ l.route v.id t u) : m.isSet (.routeTo n v.id t) = true :=
    (isSet_routeTo hm hv ht).mpr (mem_flow.mpr ⟨u, hu, hn⟩)
  have hhead := h.head_of_unit hd hg hv ht hu hw hmem
  obtain ⟨port, hlast, -⟩ := hpath.stop
  have hchain : (l.route v.id t u).IsChain fun x y => y ∈ m.nextNodes g v.id t x :=
    hpath.wires.imp_of_mem_imp fun x y _ hy hxy => Model.mem_nextNodes.mpr ⟨hxy, hflow hy⟩
  refine Walks.of_isChain hchain (fun x hx => ⟨fun htarget => ?_, ?_⟩) hhead hlast
    (SortedSet.mem_toList.mpr ((h.mem_targets hd hg hm hv ht).mpr ⟨u, hu, hlast⟩))
  · -- Neither the unit at the start nor a node in between is the end of a path.
    obtain ⟨u', hu', hend⟩ := (h.mem_targets hd hg hm hv ht).mp htarget
    obtain ⟨rest, hrest⟩ := List.head?_eq_some_iff.mp hhead
    rw [hrest, List.dropLast_cons_of_ne_nil] at hx
    rcases List.mem_cons.mp hx with rfl | hx
    · exact hg.not_routing_of_unit hw (h.last_mem_routing hd hg hv ht hu' hend)
    · exact (hpath.between x (by rwa [hrest])).2 u' hu' hend
    · rintro rfl
      cases hx
  · rw [← hpath.onward x hx, List.countP_eq_length_filter]
    refine congrArg List.length (List.filter_congr fun y _ => ?_)
    rw [Bool.eq_iff_iff, isSet_routeTo hm hv ht, decide_eq_true_eq]

/-- Every walk of the checker is the path to a unit. -/
theorem Legal.route_of_walks {nodes : List NodeId} (hw : w ∈ m.hosts g v.src) (hset : m.isSet (.routeTo w v.id t) = true)
    (hwalk : Walks (m.nextNodes g v.id t) (m.targets g t).toList w nodes) :
    ∃ u ∈ (l.hosts t.op).toList, nodes = l.route v.id t u := by
  obtain ⟨u, hu, hmem⟩ := mem_flow.mp ((isSet_routeTo hm hv ht).mp hset)
  exact ⟨u, hu, hwalk.unique (h.walks hd hg hm hv ht hu (Model.mem_hosts.mp hw).1 hmem)⟩

/-- The fuel of the checker is enough for every path. -/
theorem Legal.length_le (hu : u ∈ (l.hosts t.op).toList) : (l.route v.id t u).length ≤ g.routing.length + 1 := by
  obtain ⟨w, -, hhead, hw⟩ := h.head_mem_units hd hv ht hu
  obtain ⟨rest, hrest⟩ := List.head?_eq_some_iff.mp hhead
  have hwalk := h.walks hd hg hm hv ht hu hw (List.mem_of_head? hhead)
  have hsub : (l.route v.id t u).tail ⊆ g.routing := fun n hn => h.tail_routing hd hg hv ht hu hn
  have hlen := (hwalk.nodup.tail.subperm hsub).length_le
  rw [List.length_tail] at hlen
  omega

/-- Every flow arrives. -/
theorem Legal.flowArrives : m.FlowArrives g v t := by
  refine ⟨fun w hw hset => ?_, fun port hport => ?_⟩
  · obtain ⟨u, hu, hmem⟩ := mem_flow.mp ((isSet_routeTo hm hv ht).mp hset)
    exact ⟨_, h.walks hd hg hm hv ht hu (Model.mem_hosts.mp hw).1 hmem⟩
  · obtain ⟨u, hu, hlast⟩ := (h.mem_targets hd hg hm hv ht).mp hport
    obtain ⟨w, hw, hhead, hunit⟩ := h.head_mem_units hd hv ht hu
    have hmem := List.mem_of_head? hhead
    refine ⟨w, (h.mem_hosts_src hd hg hm hv).mpr hw, (isSet_routeTo hm hv ht).mpr (mem_flow.mpr ⟨u, hu, hmem⟩), _,
      h.walks hd hg hm hv ht hu hunit hmem, ?_⟩
    rw [List.getLastD_eq_getLast?, hlast]
    rfl

end

/-! ## The check of a layout -/

theorem Legal.accepted : m.Accepted g d where
  placed := fun op hop => by
    have hhosts := h.hosts_eq hg hm hop
    have hhosted := h.hosted op hop
    split at hhosted
    · next hdup =>
      rw [if_pos hdup]
      obtain ⟨u, hu⟩ := List.exists_mem_of_ne_nil _ hhosted
      exact ⟨u, Model.mem_hosts.mp (hhosts ▸ hu)⟩
    · next hdup =>
      rw [if_neg hdup, List.countP_eq_length_filter]
      exact (congrArg List.length hhosts).trans hhosted
  exclusive := fun u _ => countP_le_one (hd.nodup_operations.of_map _) fun op hop op' hop' hu hu' =>
    h.exclusive op hop op' hop' u ((isSet_place hm hop).mp hu) ((isSet_place hm hop').mp hu')
  supported := fun u _ op hop hnot => Bool.eq_false_iff.mpr fun hplace => by
    rw [(h.supported op hop u ((isSet_place hm hop).mp hplace)).2] at hnot
    cases hnot
  nodes := fun n _ => countP_le_one (hd.nodup_values.of_map _) fun v hv w hw hn hn' =>
    h.apart v hv w hw n ((isSet_route hd hm hv).mp hn) ((isSet_route hd hm hw).mp hn')
  nets := fun n _ v hv t ht hset =>
    (isSet_route hd hm hv).mpr (mem_net.mpr ⟨t, ht, (isSet_routeTo hm hv ht).mp hset⟩)
  arrives := fun v hv t ht => h.flowArrives hd hg hm hv ht

/-- What the check traces are the paths of the layout. -/
theorem Legal.mem_paths_iff (hverify : m.verify g d = .ok s) : p ∈ s.paths ↔ p ∈ l.paths d := by
  have htr := Model.traced (Model.verify_eq_ok hverify).2.2
  have hof {p : RoutedPath} (hp : p ∈ s.paths) : ∃ v ∈ d.values, ∃ t ∈ v.dsts, ∃ u ∈ (l.hosts t.op).toList,
      p = ⟨v.id, t, l.route v.id t u⟩ := by
    obtain ⟨v, hv, hpv, ht, w, hw, hset, hwalk⟩ := htr.walks p hp
    obtain ⟨u, hu, hnodes⟩ := h.route_of_walks hd hg hm hv ht hw hset hwalk
    exact ⟨v, hv, p.terminal, ht, u, hu, by rw [← hnodes, ← hpv]⟩
  rw [mem_paths]
  refine ⟨hof, ?_⟩
  rintro ⟨v, hv, t, ht, u, hu, rfl⟩
  obtain ⟨w, hw, hhead, hunit⟩ := h.head_mem_units hd hv ht hu
  have hmem := List.mem_of_head? hhead
  obtain ⟨p, hp, hpv, rfl, hwp⟩ := htr.starts v hv t ht w ((h.mem_hosts_src hd hg hm hv).mpr hw)
    ((isSet_routeTo hm hv ht).mpr (mem_flow.mpr ⟨u, hu, hmem⟩))
  obtain ⟨v', hv', t', ht', u', hu', rfl⟩ := hof hp
  obtain rfl := hd.value_inj hv' hv hpv
  -- Both paths are the walk from the same unit.
  have hsame := (h.walks hd hg hm hv ht hu hunit hmem).unique (h.walks hd hg hm hv ht hu' hunit hwp)
  exact hsame ▸ hp

theorem Legal.verify_ok : ∃ s, m.verify g d = .ok s ∧ s.placements = l.placements d ∧ s.nets = l.nets g d ∧
    ∀ p, p ∈ s.paths ↔ p ∈ l.paths d := by
  obtain ⟨s, hs⟩ := (h.accepted hd hg hm).verify_ok fun v hv t ht w hw hset nodes hwalk => by
    obtain ⟨u, hu, rfl⟩ := h.route_of_walks hd hg hm hv ht hw hset hwalk
    exact Nat.le_succ_of_le (h.length_le hd hg hm hv ht hu)
  refine ⟨s, hs, ?_, ?_, fun p => h.mem_paths_iff hd hg hm hs⟩
  · rw [Model.placements_eq hs]
    exact congrArg SortedMap.ofList (List.map_congr_left fun op hop => by rw [h.hosts_eq hg hm hop])
  · obtain ⟨⟨⟩, -, hnets⟩ := bind_eq_ok (Model.verify_eq_ok hs).2.1
    rw [← Except.ok.inj hnets]
    unfold Model.carriedNets nets
    congr 2
    refine List.map_congr_left fun v hv => ?_
    congr 2
    refine List.filter_congr fun n _ => ?_
    rw [Bool.eq_iff_iff, isSet_route hd hm hv, decide_eq_true_eq]

end

end Layout

/-- Every model that takes exactly the decisions of a legal layout passes the check, which returns the layout. -/
theorem verify_layout {f : Fabric} {options : GraphOptions} {g : Graph} {d : Design} {operations : SortedMap String String}
    {ties : List NamedTie} {duplicates : SortedSet String} {l : Layout} {m : Model} (hg : Graph.build f options = .ok g)
    (hd : Design.new operations ties duplicates = .ok d) (h : l.Legal g d) (hm : ∀ k, m.isSet k = true ↔ k ∈ l.keys d) :
    ∃ s, m.verify g d = .ok s ∧ s.placements = l.placements d ∧ s.nets = l.nets g d ∧ ∀ p, p ∈ s.paths ↔ p ∈ l.paths d :=
  h.verify_ok (Design.wellWired_new hd) (Graph.consistent_build hg).1 hm

/-- The source and the sink stand on their units, and the path runs through the port. -/
def Layout.line : Layout where
  hosts op := .ofList [op]
  route _ _ _ := [0, 2]

theorem line_verify_layout : ∃ (g : Graph) (d : Design) (s : Solution), Graph.build .line {} = .ok g ∧
    Design.new (.ofList [("c", "const"), ("s", "store")]) [⟨"c", "s", 0⟩] ∅ = .ok d ∧ Layout.line.Legal g d ∧
    (Layout.line.model d).verify g d = .ok s ∧ s.placements = Layout.line.placements d ∧ s.nets = Layout.line.nets g d ∧
    (∀ p, p ∈ s.paths ↔ p ∈ Layout.line.paths d) ∧ s.paths ≠ [] := by
  obtain ⟨g, d, hg, hd⟩ := exists_line
  have hlegal : ((Graph.build .line {}).toOption.any fun g =>
      (Design.new (.ofList [("c", "const"), ("s", "store")]) [⟨"c", "s", 0⟩] ∅).toOption.any fun d =>
        decide (Layout.line.Legal g d) && !(Layout.line.paths d).isEmpty) = true := by decide +kernel
  rw [hg, hd] at hlegal
  obtain ⟨hlegal, hpaths⟩ := Bool.and_eq_true_iff.mp hlegal
  have hlegal := of_decide_eq_true hlegal
  obtain ⟨s, hs, hplacements, hnets, hmem⟩ := verify_layout hg hd hlegal fun _ => Layout.isSet_model
  obtain ⟨p, hp⟩ := List.exists_mem_of_ne_nil _ (by simpa using hpaths)
  exact ⟨g, d, s, hg, hd, hlegal, hs, hplacements, hnets, hmem, List.ne_nil_of_mem ((hmem p).mpr hp)⟩

end PlaceRoute
