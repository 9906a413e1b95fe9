import PlaceRoute.Proofs.Mapping.Accept
import PlaceRoute.Proofs.Mapping.Ports

/-!
# Direct walks

In an ordinary graph every operand port drives exactly one unit and nothing else (`Graph.Ordinary`). Where no unit but the
hosts of its source carries a value, a walk of an accepted model, cut off before its last unit, runs straight from a host of the
source to a port of the consumer, over routing nodes and no other port (`Model.exists_direct`). Direct walks of one flow that
meet are walks to one unit (`Model.Direct.consumer_eq`).
-/

namespace PlaceRoute

/-- Every operand port drives exactly one functional unit and nothing else. -/
def Graph.Ordinary (g : Graph) : Prop :=
  ∀ n ∈ g.nodes.toList, n.isOperandPort = true → ∃ u ∈ g.units, n.fanout = [u]

instance (g : Graph) : Decidable g.Ordinary :=
  inferInstanceAs (Decidable (∀ n ∈ g.nodes.toList, n.isOperandPort = true → ∃ u ∈ g.units, n.fanout = [u]))

namespace Graph.Ordinary

variable {g : Graph} {p : NodeId} {i : Nat} {q : Node}

theorem portsFeedUnits (h : g.Ordinary) : g.PortsFeedUnits := by
  intro n hn hport _
  obtain ⟨u, hu, hfanout⟩ := h n hn hport
  rw [hfanout]
  exact ⟨List.cons_ne_nil _ _, fun x hx => List.mem_singleton.mp hx ▸ hu⟩

theorem exists_fanout_eq (h : g.Ordinary) (hq : g.node? p = some q) (hkind : q.kind = .operandPort i) :
    ∃ u ∈ g.units, g.fanout p = [u] := by
  obtain ⟨u, hu, hfanout⟩ := h q (Array.mem_toList_iff.mpr (Array.mem_of_getElem? hq)) (by simp [Node.isOperandPort, hkind])
  exact ⟨u, hu, by rw [Graph.fanout, hq]; exact hfanout⟩

end Graph.Ordinary

namespace Model

variable {g : Graph} {d : Design} {m : Model} {v : Value} {t : Terminal} {u u' x y : NodeId} {nodes nodes' : List NodeId}

/-- A walk of a flow over routing nodes, from a host of its source to the port of a unit for its operand. -/
structure Direct (g : Graph) (m : Model) (v : Value) (t : Terminal) (u : NodeId) (nodes : List NodeId) : Prop where
  walks : Walks (m.nextNodes g v.id t) (m.targets g t).toList (nodes.headD 0) nodes
  host : nodes.headD 0 ∈ m.hosts g v.src
  carries : ∀ x ∈ nodes, m.isSet (.routeTo x v.id t) = true
  routing : ∀ x ∈ nodes, x = nodes.headD 0 ∨ x ∈ g.routing
  feeds : u ∈ g.fanout (nodes.getLastD 0)
  port : ∃ q, g.node? (nodes.getLastD 0) = some q ∧ q.kind = .operandPort t.operand

/-- Every operand of a host arrives by a direct walk, if the host has a port for it and only hosts of the source carry the
value. -/
theorem exists_direct (hg : g.WellWired) (hm : m.Arrives g d)
    (hcarry : ∀ u ∈ g.units, m.carriesFlow u v = true → u ∈ m.hosts g v.src) (hv : v ∈ d.values) (ht : t ∈ v.dsts)
    (hu : u ∈ m.hosts g t.op) (hport : g.HasPort u t.operand) : ∃ nodes, m.Direct g v t u nodes := by
  obtain ⟨node, hnode, hunit⟩ := hg.units.mp (mem_hosts.mp hu).1
  obtain ⟨port, hbound⟩ := (hg.hasPort_iff hnode hunit).mp hport
  obtain ⟨hfanin, hkind⟩ := (hg.bound_iff hnode hunit).mp hbound
  obtain ⟨w, hw, hset, nodes, hwalk, rfl⟩ := (hm v hv t ht).ends port (mem_targets.mpr ⟨u, hu, node, hnode, hbound⟩)
  have hcarries := hwalk.forall_mem hset fun _ _ _ hy => (mem_nextNodes.mp hy).2
  have hhas := hwalk.forall_mem (hg.has_of_unit (mem_hosts.mp hw).1) fun _ _ _ hy => hg.has_fanout (mem_nextNodes.mp hy).1
  obtain ⟨w', rest, hw', hrest, hsuffix, hlast, hothers⟩ := hwalk.exists_last hwalk.mem_start (mem_hosts.mp hw).1
  have hcarries : ∀ x ∈ rest, m.isSet (.routeTo x v.id t) = true := fun x hx => hcarries x (hsuffix.mem hx)
  have hstart : rest.headD 0 = w' := hrest.headD_eq
  refine ⟨rest, hstart ▸ hrest, ?_, hcarries, fun x hx => ?_, hg.fanin_iff_fanout.mp (hlast ▸ hfanin),
    hlast ▸ hkind⟩
  · rw [hstart]
    exact hcarry w' hw' (List.any_eq_true.mpr ⟨t, ht, hcarries w' hrest.mem_start⟩)
  · rw [hstart]
    exact (hothers x hx).imp_right (hg.unit_or_routing (hhas x (hsuffix.mem hx))).resolve_left

namespace Direct

variable (hg : g.WellWired) (hports : g.Ordinary)

theorem head_mem_units (h : m.Direct g v t u nodes) : nodes.headD 0 ∈ g.units := (mem_hosts.mp h.host).1

/-- A node that is no target is followed by one node. -/
theorem exists_next (h : m.Direct g v t u nodes) (hx : x ∈ nodes) (hnot : x ∉ (m.targets g t).toList) :
    ∃ y ∈ nodes, m.nextNodes g v.id t x = [y] := by
  obtain ⟨rest, hrest, hsuffix, -⟩ := h.walks.of_mem hx
  obtain ⟨y, rest, rfl, hy, hwalk⟩ := (Walks.iff_of_not_mem hnot).mp hrest
  exact ⟨y, hsuffix.mem (List.mem_cons_of_mem _ hwalk.mem_start), hy⟩

include hports

/-- The unit at the end is the only node that the last node drives. -/
theorem fanout_last (h : m.Direct g v t u nodes) : g.fanout (nodes.getLastD 0) = [u] := by
  obtain ⟨q, hq, hkind⟩ := h.port
  obtain ⟨w, -, hw⟩ := hports.exists_fanout_eq hq hkind
  have hfeeds := h.feeds
  rw [hw, List.mem_singleton] at hfeeds
  rw [hw, hfeeds]

include hg

/-- A port on a direct walk is its end. -/
theorem eq_last_of_port {i : Nat} {q : Node} (h : m.Direct g v t u nodes) (hx : x ∈ nodes) (hq : g.node? x = some q)
    (hkind : q.kind = .operandPort i) : x = nodes.getLastD 0 := by
  by_cases htarget : x ∈ (m.targets g t).toList
  · exact (h.walks.getLastD_of_mem_targets hx htarget).symm
  obtain ⟨y, hy, hnext⟩ := h.exists_next hx htarget
  obtain ⟨w, hw, hfanout⟩ := hports.exists_fanout_eq hq hkind
  have hxy := (mem_nextNodes.mp (hnext ▸ List.mem_singleton_self y)).1
  rw [hfanout, List.mem_singleton] at hxy
  -- The port is followed by a unit, and the only unit on the walk is its start.
  have hstart : y = nodes.headD 0 := (h.routing y hy).resolve_right (hg.not_routing_of_unit (hxy ▸ hw))
  exact absurd (hstart ▸ hnext) (h.walks.next_ne_start hx htarget)

omit hg in
/-- Direct walks of one flow that meet end at one unit. -/
theorem consumer_eq (h : m.Direct g v t u nodes) (h' : m.Direct g v t u' nodes') (hx : x ∈ nodes) (hx' : x ∈ nodes') :
    u = u' := by
  have hlast := h.walks.getLastD_eq h'.walks hx hx'
  have hfanout := h.fanout_last hports
  rw [hlast, h'.fanout_last hports] at hfanout
  exact (List.singleton_inj.mp hfanout).symm

end Direct
end Model
end PlaceRoute
