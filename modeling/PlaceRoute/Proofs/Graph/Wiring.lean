import PlaceRoute.Graph.Build
import PlaceRoute.Proofs.Sorted

/-!
# Graphs that are wired consistently

What every finished graph satisfies (`Graph.WellWired`): nodes are numbered by their place, wires join nodes of the graph
and are seen from both ends, and a functional unit is driven by operand ports only, one for each operand that it binds.
-/

namespace PlaceRoute
namespace Graph

/-- Nodes are numbered by their place, and the wires between them are seen from both ends. -/
structure WellWired (g : Graph) : Prop where
  id : ∀ {i : NodeId} {n : Node}, g.node? i = some n → n.id = i
  units : ∀ {u : NodeId}, u ∈ g.units ↔ ∃ n, g.node? u = some n ∧ n.isUnit = true
  routing : ∀ {r : NodeId}, r ∈ g.routing ↔ ∃ n, g.node? r = some n ∧ n.isUnit = false
  units_nodup : g.units.Nodup
  routing_nodup : g.routing.Nodup
  fanin_iff_fanout : ∀ {m n : NodeId}, m ∈ g.fanin n ↔ n ∈ g.fanout m
  /-- A unit binds exactly the operand ports that drive it, each at its operand. -/
  bound_iff : ∀ {u i p : NodeId} {n : Node}, g.node? u = some n → n.isUnit = true →
    (n.operandPort? i = some p ↔ p ∈ g.fanin u ∧ ∃ q, g.node? p = some q ∧ q.kind = .operandPort i)
  /-- A unit is driven by operand ports only. -/
  driver_of_unit : ∀ {u p : NodeId}, u ∈ g.units → p ∈ g.fanin u → ∃ i q, g.node? p = some q ∧ q.kind = .operandPort i

variable {g : Graph} {i m n : NodeId}

/-- An edge that is listed at its source. -/
def Sends (g : Graph) (e : Edge) : Prop :=
  ∃ n, g.node? e.src = some n ∧ ⟨e.dst, e.dstPort⟩ ∈ n.outputs.valuesOf e.srcPort

/-- An edge that is listed at its target. -/
def Receives (g : Graph) (e : Edge) : Prop :=
  ∃ n, g.node? e.dst = some n ∧ ⟨e.src, e.srcPort⟩ ∈ n.inputs.valuesOf e.dstPort

/-- The number of a node that exists. -/
def Has (g : Graph) (i : NodeId) : Prop := ∃ n, g.node? i = some n

/-- A unit is driven by a port for the operand. -/
def HasPort (g : Graph) (u : NodeId) (operand : Nat) : Prop :=
  ∃ port ∈ g.fanin u, ∃ q, g.node? port = some q ∧ q.kind = .operandPort operand

instance (g : Graph) (u : NodeId) (operand : Nat) : Decidable (g.HasPort u operand) :=
  decidable_of_iff (∃ port ∈ g.fanin u, ((g.node? port).any fun q => decide (q.kind = .operandPort operand)) = true) <|
    exists_congr fun _ => and_congr_right fun _ => by simp [Option.any_eq_true]

theorem has_of_mem_fanout (h : m ∈ g.fanout n) : g.Has n := by
  unfold Graph.fanout at h
  cases hn : g.node? n with
  | none => simp [hn] at h
  | some node => exact ⟨node, hn⟩

theorem has_of_mem_fanin (h : m ∈ g.fanin n) : g.Has n := by
  unfold Graph.fanin at h
  cases hn : g.node? n with
  | none => simp [hn] at h
  | some node => exact ⟨node, hn⟩

theorem nodup_fanin : (g.fanin n).Nodup := by
  unfold Graph.fanin
  cases g.node? n with
  | none => exact List.nodup_nil
  | some node => exact SortedSet.nodup _

theorem nodup_fanout : (g.fanout n).Nodup := by
  unfold Graph.fanout
  cases g.node? n with
  | none => exact List.nodup_nil
  | some node => exact SortedSet.nodup _

namespace WellWired

variable (hg : g.WellWired)
include hg

theorem has_fanin (h : m ∈ g.fanin n) : g.Has m := has_of_mem_fanout (hg.fanin_iff_fanout.mp h)

theorem has_fanout (h : m ∈ g.fanout n) : g.Has m := has_of_mem_fanin (hg.fanin_iff_fanout.mpr h)

theorem node?_of_mem {n : Node} (hn : n ∈ g.nodes.toList) : g.node? n.id = some n := by
  obtain ⟨j, hj⟩ := List.getElem?_of_mem hn
  have hj : g.node? j = some n := by rw [Graph.node?, ← Array.getElem?_toList, hj]
  exact hg.id hj ▸ hj

theorem mem_ids : i ∈ g.ids ↔ g.Has i := by
  unfold Graph.ids
  rw [List.mem_map]
  constructor
  · rintro ⟨n, hn, rfl⟩
    exact ⟨n, hg.node?_of_mem hn⟩
  · rintro ⟨n, hn⟩
    exact ⟨n, Array.mem_toList_iff.mpr (Array.mem_of_getElem? hn), hg.id hn⟩

theorem nodup_ids : g.ids.Nodup :=
  nodup_map_of_index _ fun i n hn => hg.id (by rwa [Graph.node?, ← Array.getElem?_toList])

/-- A node is a unit or a routing node. -/
theorem unit_or_routing (h : g.Has i) : i ∈ g.units ∨ i ∈ g.routing := by
  obtain ⟨n, hn⟩ := h
  cases hu : n.isUnit with
  | true => exact Or.inl (hg.units.mpr ⟨n, hn, hu⟩)
  | false => exact Or.inr (hg.routing.mpr ⟨n, hn, hu⟩)

theorem has_of_unit (h : i ∈ g.units) : g.Has i := by
  obtain ⟨n, hn, -⟩ := hg.units.mp h
  exact ⟨n, hn⟩

theorem has_of_routing (h : i ∈ g.routing) : g.Has i := by
  obtain ⟨n, hn, -⟩ := hg.routing.mp h
  exact ⟨n, hn⟩

theorem not_routing_of_unit (h : i ∈ g.units) : i ∉ g.routing := by
  intro hr
  obtain ⟨n, hn, hu⟩ := hg.units.mp h
  obtain ⟨n', hn', hr⟩ := hg.routing.mp hr
  rw [hn] at hn'
  rw [← Option.some.inj hn', hu] at hr
  cases hr

/-- A unit binds an operand exactly if it has a port for it. -/
theorem hasPort_iff {u operand : NodeId} {n : Node} (hn : g.node? u = some n) (hunit : n.isUnit = true) :
    g.HasPort u operand ↔ ∃ port, n.operandPort? operand = some port :=
  exists_congr fun _ => (hg.bound_iff hn hunit).symm

end WellWired
end Graph
end PlaceRoute
