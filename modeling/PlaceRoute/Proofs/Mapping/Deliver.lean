import PlaceRoute.Fabric.Validation
import PlaceRoute.Proofs.Graph.Build
import PlaceRoute.Proofs.Mapping.Accept
import PlaceRoute.Proofs.Mapping.Faithful
import PlaceRoute.Proofs.Session.Bounds

/-!
# What accepted mappings deliver

A solution delivers an operand to a unit if one of its paths ends at a port of the unit for that operand (`Solution.Delivers`).
The check looks for paths to the ports of a host only, so it passes over a host that has no port for the operand
(`unrouted_not_delivered`). To every other host the operand is delivered, from a host of its source
(`verify_delivers_iff`), and no host lacks a port where flows end at ports.
-/

namespace PlaceRoute

/-- A path runs from a host of the value's source to a port of the unit for the terminal's operand. -/
def Solution.Delivers (s : Solution) (g : Graph) (m : Model) (v : Value) (t : Terminal) (u : NodeId) : Prop :=
  ∃ p ∈ s.paths, p.value = v.id ∧ p.terminal = t ∧ p.source ∈ m.hosts g v.src ∧ p.sink ∈ g.fanin u ∧
    ∃ q, g.node? p.sink = some q ∧ q.kind = .operandPort t.operand

namespace Model

variable {g : Graph} {d : Design} {m : Model} {s : Solution} {v : Value} {t : Terminal} {u : NodeId}

/-- An accepted model delivers to the hosts that have a port. -/
theorem delivers_of_hasPort (hg : g.WellWired) (hd : d.WellWired) (hverify : m.verify g d = .ok s) (hv : v ∈ d.values)
    (ht : t ∈ v.dsts) (hu : u ∈ m.hosts g t.op) (hport : g.HasPort u t.operand) : s.Delivers g m v t u := by
  obtain ⟨node, hnode, hunit⟩ := hg.units.mp (mem_hosts.mp hu).1
  obtain ⟨port, hbound⟩ := (hg.hasPort_iff hnode hunit).mp hport
  obtain ⟨hfanin, hkind⟩ := (hg.bound_iff hnode hunit).mp hbound
  obtain ⟨p, hp, hpv, hpt, hsource, rfl⟩ := exists_path_of_mem_targets hd (verify_eq_ok hverify).2.2 hv ht
    (mem_targets.mpr ⟨u, hu, node, hnode, hbound⟩)
  exact ⟨p, hp, hpv, hpt, hsource, hfanin, hkind⟩

/-- Where flows end at ports, a host has a port for every operand of its operation. -/
theorem hasPort_of_flowsEndAtPorts (hg : g.WellWired) (hd : d.WellWired) (h : Family.FlowsEndAtPorts g d m.isSet)
    (hsupported : Family.PlacementsSupported g d m.isSet) (hv : v ∈ d.values) (ht : t ∈ v.dsts)
    (hu : u ∈ m.hosts g t.op) : g.HasPort u t.operand := by
  obtain ⟨hunit, hplace⟩ := mem_hosts.mp hu
  obtain ⟨node, hnode, hisUnit⟩ := hg.units.mp hunit
  obtain ⟨dst, hdst, -⟩ := hd.dst hv ht
  have hid := hd.op_id hdst
  obtain ⟨-, -, hnone⟩ := Family.flowsEndAtPorts_iff.mp h u hunit node hnode v t ⟨hv, ht⟩ dst hdst
  cases hport : node.operandPort? t.operand with
  | some port => exact (hg.hasPort_iff hnode hisUnit).mpr ⟨port, hport⟩
  | none =>
    have hsupports : Family.supports g u dst = true := by
      by_contra hnot
      have hoff := hsupported u hunit dst (List.mem_of_getElem? hdst) (Bool.eq_false_iff.mpr hnot)
      rw [hid, hplace] at hoff
      cases hoff
    have hoff := hnone hport hsupports
    rw [hid, hplace] at hoff
    cases hoff

end Model

/-- Whatever its keys and values, a model that passes the check delivers every operand to exactly those hosts of its operation
that are driven by a port for it; if its flows end at ports, as the families ask, to all hosts. -/
theorem verify_delivers_iff {f : Fabric} {options : GraphOptions} {g : Graph} {d : Design}
    {operations : SortedMap String String} {ties : List NamedTie} {duplicates : SortedSet String}
    (hg : Graph.build f options = .ok g) (hd : Design.new operations ties duplicates = .ok d) {m : Model} {s : Solution}
    (hverify : m.verify g d = .ok s) :
    (∀ v ∈ d.values, ∀ t ∈ v.dsts, ∀ u ∈ m.hosts g t.op, s.Delivers g m v t u ↔ g.HasPort u t.operand) ∧
    (Family.FlowsEndAtPorts g d m.isSet → ∀ v ∈ d.values, ∀ t ∈ v.dsts, ∀ u ∈ m.hosts g t.op, s.Delivers g m v t u) := by
  have hg := Graph.wellWired_build hg
  have hd := Design.wellWired_new hd
  refine ⟨fun v hv t ht u hu => ⟨?_, Model.delivers_of_hasPort hg hd hverify hv ht hu⟩, fun hends v hv t ht u hu => ?_⟩
  · rintro ⟨p, -, -, -, -, hfanin, hkind⟩
    exact ⟨p.sink, hfanin, hkind⟩
  · have hsupported := (Model.accepted_of_verify hverify).supported
    exact Model.delivers_of_hasPort hg hd hverify hv ht hu (Model.hasPort_of_flowsEndAtPorts hg hd hends hsupported hv ht hu)

theorem line_delivers : ∃ (g : Graph) (d : Design) (s : Solution), Graph.build .line {} = .ok g ∧
    Design.new (.ofList [("c", "const"), ("s", "store")]) [⟨"c", "s", 0⟩] ∅ = .ok d ∧ Model.line.verify g d = .ok s ∧
    ∀ v ∈ d.values, ∀ t ∈ v.dsts, ∀ u ∈ Model.line.hosts g t.op, s.Delivers g .line v t u := by
  obtain ⟨g, d, hg, hd⟩ := exists_line
  have hholds := (line_isMapping hg hd).holds
  have hgw := Graph.wellWired_build hg
  have hdw := Design.wellWired_new hd
  obtain ⟨s, hs⟩ := (Model.verify_ok_iff hholds hdw hgw).mpr
    (Model.arrives_of_portsFeedUnits hdw hgw hholds (line_portsFeedUnits hg))
  exact ⟨g, d, s, hg, hd, hs, (verify_delivers_iff hg hd hs).2 (hholds .portPlacement)⟩

/-- The source and the sink of the line are placed, and nothing is routed. -/
def Model.unrouted : Model := .ofList [(.place 0 0, 1), (.place 1 1, 1)]

/-- The sink reads its second operand but has a port for the first only: the check accepts the placement, without a path. -/
theorem unrouted_not_delivered : ∃ (g : Graph) (d : Design) (s : Solution), Fabric.line.validate = .ok () ∧
    Graph.build .line {} = .ok g ∧ Design.new (.ofList [("c", "const"), ("s", "store")]) [⟨"c", "s", 1⟩] ∅ = .ok d ∧
    Model.unrouted.verify g d = .ok s ∧
    ∃ v ∈ d.values, ∃ t ∈ v.dsts, ∃ u ∈ Model.unrouted.hosts g t.op, ¬ s.Delivers g .unrouted v t u := by
  have haccepted : ((Graph.build .line {}).toOption.any fun g =>
      (Design.new (.ofList [("c", "const"), ("s", "store")]) [⟨"c", "s", 1⟩] ∅).toOption.any fun d =>
        (Model.unrouted.verify g d).toOption.any fun s => s.paths.isEmpty &&
          d.values.any fun v => v.dsts.any fun t => (Model.unrouted.hosts g t.op).any fun _ => true) = true := by
    decide +kernel
  obtain ⟨g, hg⟩ : ∃ g, Graph.build .line {} = .ok g := ⟨_, rfl⟩
  obtain ⟨d, hd⟩ : ∃ d, Design.new (.ofList [("c", "const"), ("s", "store")]) [⟨"c", "s", 1⟩] ∅ = .ok d := ⟨_, rfl⟩
  rw [hg, hd] at haccepted
  change ((Model.unrouted.verify g d).toOption.any fun s => _) = true at haccepted
  cases hverify : Model.unrouted.verify g d with
  | error e =>
    rw [hverify] at haccepted
    cases haccepted
  | ok s =>
    rw [hverify] at haccepted
    obtain ⟨hempty, hhosted⟩ := Bool.and_eq_true_iff.mp haccepted
    obtain ⟨v, hv, hhosted⟩ := List.any_eq_true.mp hhosted
    obtain ⟨t, ht, hhosted⟩ := List.any_eq_true.mp hhosted
    obtain ⟨u, hu, -⟩ := List.any_eq_true.mp hhosted
    refine ⟨g, d, s, rfl, hg, hd, hverify, v, hv, t, ht, u, hu, ?_⟩
    rintro ⟨p, hp, -⟩
    rw [List.isEmpty_iff.mp hempty] at hp
    cases hp

end PlaceRoute
