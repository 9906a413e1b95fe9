import PlaceRoute.Proofs.Mapping.Arrive

/-!
# Accepted models

What the check makes sure of, in plain terms: `Model.Accepted` asks that placements are legal, that no node carries more than one
net or a flow without its net, and that all flows arrive. Every model that passes the check is accepted in this sense
(`Model.accepted_of_verify`), whatever its keys and values, and the paths returned are the walks of its flows
(`Model.exists_path_of_mem_targets`).
-/

namespace PlaceRoute

namespace Model

variable {g : Graph} {d : Design} {m : Model} {v : Value} {t : Terminal}

/-- Legal placements, one net at most on each node and none without need, and flows that arrive. -/
structure Accepted (g : Graph) (d : Design) (m : Model) : Prop where
  placed : Family.OpsPlaced g d m.isSet
  exclusive : Family.UnitsExclusive g d m.isSet
  supported : Family.PlacementsSupported g d m.isSet
  nodes : Family.NodesExclusive g d m.isSet
  nets : ∀ n ∈ g.ids, ∀ v ∈ d.values, ∀ t ∈ v.dsts,
    m.isSet (.routeTo n v.id t) = true → m.isSet (.route n v.id) = true
  arrives : m.Arrives g d

/-- An operation that passes the check is placed, once unless it may be duplicated, on units that support it. -/
theorem of_checkOperation_ok {op : Operation} (h : m.checkOperation g op = .ok ()) :
    (if op.duplicate = true then ∃ u ∈ g.units, m.isSet (.place u op.id) = true
      else g.units.countP (fun u => m.isSet (.place u op.id)) = 1) ∧
    ∀ u ∈ g.units, Family.supports g u op = false → m.isSet (.place u op.id) = false := by
  unfold checkOperation at h
  dsimp only at h
  have hlen : (m.hosts g op.id).length = g.units.countP fun u => m.isSet (.place u op.id) :=
    List.countP_eq_length_filter.symm
  split at h
  · cases h
  next hne =>
  split at h
  · cases h
  next hone =>
  split at h
  · cases h
  next hall =>
  refine ⟨?_, fun u hu hnot => Bool.eq_false_iff.mpr fun hplace => ?_⟩
  · split
    · rw [List.isEmpty_iff, ← ne_eq] at hne
      obtain ⟨u, hu⟩ := List.exists_mem_of_ne_nil _ hne
      exact ⟨u, mem_hosts.mp hu⟩
    · next hdup =>
      rw [← hlen]
      by_contra hmany
      exact hone ⟨hmany, by simpa using hdup⟩
  · have hsupports := List.find?_eq_none.mp hall u (mem_hosts.mpr ⟨hu, hplace⟩)
    rw [← Family.supports, hnot] at hsupports
    exact hsupports rfl

theorem of_checkUnit_ok {u : NodeId} (h : m.checkUnit g d u = .ok ()) :
    d.operations.countP (fun op => m.isSet (.place u op.id)) ≤ 1 := by
  unfold checkUnit at h
  dsimp only at h
  rw [List.length_map, ← List.countP_eq_length_filter] at h
  split at h
  · cases h
  · next hone => exact Nat.not_lt.mp hone

/-- A node that passes the check carries one net at most, and no flow without its net. -/
theorem of_checkNode_ok {n : NodeId} (h : m.checkNode g d n = .ok ()) :
    d.values.countP (fun v => m.isSet (.route n v.id)) ≤ 1 ∧
    ∀ v ∈ d.values, ∀ t ∈ v.dsts, m.isSet (.routeTo n v.id t) = true → m.isSet (.route n v.id) = true := by
  unfold checkNode at h
  obtain ⟨⟨⟩, hnets, hone⟩ := bind_eq_ok h
  refine ⟨?_, fun v hv t ht hset => ?_⟩
  · dsimp only at hone
    split at hone
    · cases hone
    · next hle => exact Nat.not_lt.mp hle
  · have hv := forM_eq_ok_iff.mp hnets v hv
    split at hv
    · cases hv
    · next hnet =>
      have hflow : m.carriesFlow n v = true := List.any_eq_true.mpr ⟨t, ht, hset⟩
      rw [hflow, Bool.true_and, Bool.not_eq_true, Bool.not_eq_false'] at hnet
      exact hnet

/-- The parts of a solution are what the checks return. -/
theorem verify_eq_ok {s : Solution} (h : m.verify g d = .ok s) :
    m.checkPlacement g d = .ok s.placements ∧ m.checkNodes g d = .ok s.nets ∧ m.tracePaths g d = .ok s.paths := by
  unfold verify at h
  obtain ⟨placements, hplacements, h⟩ := bind_eq_ok h
  obtain ⟨nets, hnets, h⟩ := bind_eq_ok h
  obtain ⟨paths, hpaths, h⟩ := bind_eq_ok h
  cases h
  exact ⟨hplacements, hnets, hpaths⟩

theorem arrives_of_tracePaths {paths : List RoutedPath} (h : m.tracePaths g d = .ok paths) : m.Arrives g d := by
  intro v hv t ht
  obtain ⟨byValue, hvalues, -⟩ := bind_eq_ok h
  obtain ⟨ofValue, hofValue⟩ := exists_of_mapM hvalues hv
  obtain ⟨byFlow, hflows, -⟩ := bind_eq_ok hofValue
  obtain ⟨paths, hpaths⟩ := exists_of_mapM hflows ht
  exact flowArrives_of_traceFlow hpaths

/-- Every model that passes the check is accepted. -/
theorem accepted_of_verify {s : Solution} (h : m.verify g d = .ok s) : m.Accepted g d := by
  obtain ⟨hplacement, hnodes, hpaths⟩ := verify_eq_ok h
  obtain ⟨⟨⟩, hops, hplacement⟩ := bind_eq_ok hplacement
  obtain ⟨⟨⟩, hunits, -⟩ := bind_eq_ok hplacement
  obtain ⟨⟨⟩, hnodes, -⟩ := bind_eq_ok hnodes
  have hops := forM_eq_ok_iff.mp hops
  have hnodes := forM_eq_ok_iff.mp hnodes
  exact {
    placed := fun op hop => (of_checkOperation_ok (hops op hop)).1
    exclusive := fun u hu => of_checkUnit_ok (forM_eq_ok_iff.mp hunits u hu)
    supported := fun u hu op hop => (of_checkOperation_ok (hops op hop)).2 u hu
    nodes := fun n hn => (of_checkNode_ok (hnodes n hn)).1
    nets := fun n hn => (of_checkNode_ok (hnodes n hn)).2
    arrives := arrives_of_tracePaths hpaths }

/-- Every accepted model passes the check, if its walks are no longer than the checker's fuel. -/
theorem Accepted.verify_ok (h : m.Accepted g d) (hlength : ∀ v ∈ d.values, ∀ t ∈ v.dsts, ∀ u ∈ m.hosts g v.src,
    m.isSet (.routeTo u v.id t) = true → ∀ nodes, Walks (m.nextNodes g v.id t) (m.targets g t).toList u nodes →
      nodes.length ≤ g.routing.length + 2) : ∃ s, m.verify g d = .ok s := by
  obtain ⟨placements, hplacements⟩ := checkPlacement_ok h.placed h.supported h.exclusive
  obtain ⟨nets, hnets⟩ := checkNodes_ok h.nodes h.nets
  obtain ⟨paths, hpaths⟩ := tracePaths_ok fun v hv t ht => (h.arrives v hv t ht).traceFlow_ok (d := d) (hlength v hv t ht)
  exact ⟨⟨placements, paths, nets⟩, by unfold verify; rw [hplacements, hnets, hpaths]; rfl⟩

/-- Every target of a flow ends a path of it, which starts at a host of the source. -/
theorem exists_path_of_mem_targets {paths : List RoutedPath} (hd : d.WellWired) (h : m.tracePaths g d = .ok paths)
    (hv : v ∈ d.values) (ht : t ∈ v.dsts) {port : NodeId} (hport : port ∈ m.targets g t) :
    ∃ p ∈ paths, p.value = v.id ∧ p.terminal = t ∧ p.source ∈ m.hosts g v.src ∧ p.sink = port := by
  have htr := traced h
  obtain ⟨p, hp, hpv, rfl, hmem⟩ := htr.ends v hv t ht port hport
  obtain ⟨w, hw, hpw, -, u, hu, -, hwalk⟩ := htr.walks p hp
  obtain rfl : w = v := hd.value_inj hw hv (hpw.symm.trans hpv)
  refine ⟨p, hp, hpv, rfl, ?_, hwalk.getLastD_of_mem_targets hmem (SortedSet.mem_toList.mpr hport)⟩
  have hsource : p.source = u := hwalk.headD_eq
  exact hsource ▸ hu

end Model
end PlaceRoute
