import Mathlib.Data.List.Nodup
import Mathlib.Logic.Function.Iterate
import PlaceRoute.Proofs.Mapping.Arrive

/-!
# Operand ports that feed units only

Nothing in the families keeps an operand port from handing a flow on, or a flow from running into a port of no unit. Where every
driven operand port drives units and nothing else (`Graph.PortsFeedUnits`), all flows of all mappings arrive
(`Model.arrives_of_portsFeedUnits`): the chain of nodes down from a host and the chain up from a target meet no node twice, so
they end (`exists_iterate_not_mem`).
-/

namespace PlaceRoute

/-! ## Chains -/

/-- Steps that never meet leave a list after at most as many steps as it has elements. -/
theorem exists_iterate_not_mem {α : Type} {l : List α} {f : α → α} {P : α → Prop} {a : α} (ha : P a)
    (hstep : ∀ x ∈ l, P x → P (f x)) (hstart : ∀ x ∈ l, P x → f x ≠ a)
    (hinj : ∀ x ∈ l, ∀ y ∈ l, P x → P y → f x = f y → x = y) :
    ∃ k, f^[k] a ∉ l ∧ P (f^[k] a) ∧ ∀ j < k, f^[j] a ∈ l ∧ P (f^[j] a) := by
  by_contra hno
  have hall (k : Nat) : f^[k] a ∈ l ∧ P (f^[k] a) := by
    induction k using Nat.strongRecOn with
    | ind k ih =>
      have hk : P (f^[k] a) := by
        cases k with
        | zero => exact ha
        | succ k =>
          rw [Function.iterate_succ_apply']
          exact hstep _ (ih k (Nat.lt_succ_self k)).1 (ih k (Nat.lt_succ_self k)).2
      refine ⟨?_, hk⟩
      by_contra hmem
      exact hno ⟨k, hmem, hk, ih⟩
  have hne (i j : Nat) (hij : i < j) : f^[i] a ≠ f^[j] a := by
    induction i generalizing j with
    | zero =>
      obtain ⟨j, rfl⟩ := Nat.exists_eq_add_one_of_ne_zero (Nat.ne_of_gt hij)
      rw [Function.iterate_succ_apply']
      exact (hstart _ (hall j).1 (hall j).2).symm
    | succ i ih =>
      obtain ⟨j, rfl⟩ := Nat.exists_eq_add_one_of_ne_zero (Nat.ne_zero_of_lt hij)
      rw [Function.iterate_succ_apply', Function.iterate_succ_apply']
      exact fun heq => ih j (Nat.lt_of_succ_lt_succ hij) (hinj _ (hall i).1 _ (hall j).1 (hall i).2 (hall j).2 heq)
  have hnodup : ((List.range (l.length + 1)).map (f^[·] a)).Nodup := by
    refine List.nodup_range.map_on fun i _ j _ heq => ?_
    rcases Nat.lt_trichotomy i j with h | h | h
    · exact absurd heq (hne i j h)
    · exact h
    · exact absurd heq.symm (hne j i h)
  have hlen := (hnodup.subperm fun x hx => by
    obtain ⟨k, -, rfl⟩ := List.mem_map.mp hx
    exact (hall k).1).length_le
  rw [List.length_map, List.length_range] at hlen
  omega

namespace Walks

variable {next : NodeId → List NodeId} {targets : List NodeId} {f : NodeId → NodeId} {n : NodeId}

/-- The walk along a chain, down to the first target. -/
theorem of_iterate {k : Nat} (hnext : ∀ j < k, f^[j] n ∉ targets ∧ next (f^[j] n) = [f (f^[j] n)])
    (hend : f^[k] n ∈ targets) : ∃ nodes, Walks next targets n nodes := by
  induction k generalizing n with
  | zero => exact ⟨_, .stop hend⟩
  | succ k ih =>
    obtain ⟨nodes, h⟩ := ih (n := f n) (fun j hj => hnext (j + 1) (Nat.succ_lt_succ hj)) hend
    obtain ⟨hn, hf⟩ := hnext 0 (Nat.succ_pos k)
    exact ⟨_, .step hn hf h⟩

/-- The walk up a chain, against its direction. -/
theorem of_iterate_back {k : Nat} (hnext : ∀ j < k, f (f^[j] n) ∉ targets ∧ next (f (f^[j] n)) = [f^[j] n])
    (hn : n ∈ targets) : ∃ nodes, Walks next targets (f^[k] n) nodes ∧ nodes.getLastD 0 = n := by
  induction k with
  | zero => exact ⟨_, .stop hn, rfl⟩
  | succ k ih =>
    obtain ⟨nodes, h, hlast⟩ := ih fun j hj => hnext j (Nat.lt_succ_of_lt hj)
    obtain ⟨hnot, hf⟩ := hnext k (Nat.lt_succ_self k)
    rw [Function.iterate_succ_apply']
    refine ⟨_, .step hnot hf h, ?_⟩
    cases h <;> exact hlast

end Walks

/-! ## Flows of a mapping -/

/-- Every operand port that is driven drives units and nothing else. -/
def Graph.PortsFeedUnits (g : Graph) : Prop :=
  ∀ n ∈ g.nodes.toList, n.isOperandPort = true → n.fanin ≠ [] → n.fanout ≠ [] ∧ ∀ u ∈ n.fanout, u ∈ g.units

instance (g : Graph) : Decidable g.PortsFeedUnits :=
  inferInstanceAs (Decidable (∀ n ∈ g.nodes.toList, n.isOperandPort = true → n.fanin ≠ [] →
    n.fanout ≠ [] ∧ ∀ u ∈ n.fanout, u ∈ g.units))

namespace Model

variable {g : Graph} {d : Design} {m : Model} {v : Value} {t : Terminal} {x : NodeId}

section
variable (hd : d.WellWired) (hg : g.WellWired) (h : Family.AllHold g d m.isSet) (hports : g.PortsFeedUnits)
  (hv : v ∈ d.values) (ht : t ∈ v.dsts)
include hd hg h hports hv ht

omit hd in
/-- An operand port that carries a flow drives units and nothing else. -/
theorem fanout_units_of_port {q : Node} (hq : g.node? x = some q) (hport : q.isOperandPort = true)
    (hset : m.isSet (.routeTo x v.id t) = true) : g.fanout x ≠ [] ∧ ∀ u ∈ g.fanout x, u ∈ g.units := by
  have hrouting : x ∈ g.routing := by
    refine hg.routing.mpr ⟨q, hq, ?_⟩
    unfold Node.isOperandPort at hport
    unfold Node.isUnit
    cases hk : q.kind <;> simp_all
  have hone := h .inputConnectivity x hrouting v t ⟨hv, ht⟩ hset
  have hfanin : q.fanin ≠ [] := by
    intro hnil
    have hnone : g.fanin x = [] := by rw [Graph.fanin, hq]; exact hnil
    rw [hnone] at hone
    cases hone
  have hfanout : g.fanout x = q.fanout := by rw [Graph.fanout, hq]; rfl
  rw [hfanout]
  exact hports q (Array.mem_toList_iff.mpr (Array.mem_of_getElem? hq)) hport hfanin

/-- A node that carries a flow and is no target hands it on to one node. -/
theorem nextNodes_of_not_target (hhas : g.Has x) (hset : m.isSet (.routeTo x v.id t) = true) (hnot : x ∉ m.targets g t) :
    ∃ y, m.nextNodes g v.id t x = [y] := by
  obtain ⟨q, hq⟩ := hhas
  have hthrough : x ∈ Family.throughNodes g := by
    refine List.mem_map.mpr ⟨q, List.mem_filter.mpr ⟨Array.mem_toList_iff.mpr (Array.mem_of_getElem? hq), ?_⟩, hg.id hq⟩
    rw [Bool.not_eq_true', Bool.eq_false_iff]
    intro hport
    obtain ⟨hne, hunits⟩ := fanout_units_of_port hg h hports hv ht hq hport hset
    obtain ⟨u, hu⟩ := List.exists_mem_of_ne_nil _ hne
    exact hnot (mem_targets_of_feeds hd hg (h .portPlacement) hv ht (hunits u hu) hu hset)
  have hone := h .outputConnectivity x hthrough v t ⟨hv, ht⟩ hset
  rw [List.countP_eq_length_filter] at hone
  exact List.length_eq_one_iff.mp hone

/-- The chain down from a host ends, since no two nodes hand the flow to one. -/
theorem walks_of_portsFeedUnits {u : NodeId} (hu : u ∈ g.units) (hset : m.isSet (.routeTo u v.id t) = true) :
    ∃ nodes, Walks (m.nextNodes g v.id t) (m.targets g t).toList u nodes := by
  have hnext {x : NodeId} (hhas : g.Has x) (hset : m.isSet (.routeTo x v.id t) = true) (hnot : x ∉ m.targets g t) :
      m.nextNodes g v.id t x = [(m.nextNodes g v.id t x).headD x] := by
    obtain ⟨y, hy⟩ := nextNodes_of_not_target hd hg h hports hv ht hhas hset hnot
    rw [hy]
    rfl
  generalize hf : (fun x => (m.nextNodes g v.id t x).headD x) = f
  have hnext {x : NodeId} (hx : g.Has x ∧ m.isSet (.routeTo x v.id t) = true) (hnot : x ∉ m.targets g t) :
      m.nextNodes g v.id t x = [f x] := by
    rw [← hf]
    exact hnext hx.1 hx.2 hnot
  have hmem {x : NodeId} (hx : g.Has x ∧ m.isSet (.routeTo x v.id t) = true) (hnot : x ∉ m.targets g t) :
      f x ∈ m.nextNodes g v.id t x := hnext hx hnot ▸ List.mem_singleton_self _
  have hrouting {x : NodeId} (hx : g.Has x ∧ m.isSet (.routeTo x v.id t) = true) (hnot : x ∉ m.targets g t) :
      f x ∈ g.routing := next_mem_routing hd hg h hv ht hx.2 hnot (hmem hx hnot)
  have hnot {x : NodeId} (hx : x ∈ (u :: g.routing).filter (· ∉ m.targets g t)) : x ∉ m.targets g t :=
    of_decide_eq_true (List.mem_filter.mp hx).2
  obtain ⟨k, hout, -, hbefore⟩ := exists_iterate_not_mem (l := (u :: g.routing).filter (· ∉ m.targets g t)) (f := f)
    (P := fun x => g.Has x ∧ m.isSet (.routeTo x v.id t) = true) ⟨hg.has_of_unit hu, hset⟩
    (fun x hx hp => by
      obtain ⟨hfanout, hset⟩ := mem_nextNodes.mp (hmem hp (hnot hx))
      exact ⟨hg.has_fanout hfanout, hset⟩)
    (fun x hx hp heq => hg.not_routing_of_unit hu (heq ▸ hrouting hp (hnot hx)))
    (fun x hx y hy hp hq heq => prev_unique hg h hv ht (hrouting hp (hnot hx)) hp.2 hq.2 (hmem hp (hnot hx))
      (heq ▸ hmem hq (hnot hy)))
  have hend : f^[k] u ∈ m.targets g t := by
    by_contra hnotTarget
    refine hout (List.mem_filter.mpr ⟨?_, decide_eq_true hnotTarget⟩)
    cases k with
    | zero => exact List.mem_cons_self
    | succ k =>
      obtain ⟨hx, hp⟩ := hbefore k (Nat.lt_succ_self k)
      rw [Function.iterate_succ_apply']
      exact List.mem_cons_of_mem _ (hrouting hp (hnot hx))
  refine Walks.of_iterate (fun j hj => ?_) (SortedSet.mem_toList.mpr hend)
  obtain ⟨hx, hp⟩ := hbefore j hj
  exact ⟨mt SortedSet.mem_toList.mp (hnot hx), hnext hp (hnot hx)⟩

omit hports in
/-- A unit that carries a flow hosts its source. -/
theorem mem_hosts_of_unit {u : NodeId} (hu : u ∈ g.units) (hset : m.isSet (.routeTo u v.id t) = true) :
    u ∈ m.hosts g v.src := by
  obtain ⟨src, hsrc, -⟩ := hd.src hv
  have hplace : m.isSet (.place u src.id) = true := by
    have hstart := h .initValue u hu v hv src hsrc
    split at hstart
    · split at hstart
      · rw [← hstart]
        exact (h .routingResourceUsage u (hg.mem_ids.mpr (hg.has_of_unit hu)) v hv).mpr ⟨t, ht, hset⟩
      · rw [← hstart t ht]
        exact hset
    · rw [hstart.2 t ht] at hset
      cases hset
  exact mem_hosts.mpr ⟨hu, hd.op_id hsrc ▸ hplace⟩

/-- The chain up from a target ends at a unit, since no node before a port hands the flow to two. -/
theorem walks_back_of_portsFeedUnits {port : NodeId} (hport : port ∈ m.targets g t) :
    ∃ u ∈ g.units, m.isSet (.routeTo u v.id t) = true ∧
      ∃ nodes, Walks (m.nextNodes g v.id t) (m.targets g t).toList u nodes ∧ nodes.getLastD 0 = port := by
  have hprev {x : NodeId} (hx : x ∈ g.routing) (hset : m.isSet (.routeTo x v.id t) = true) :
      ∃ y, ((g.fanin x).find? fun y => m.isSet (.routeTo y v.id t)) = some y := by
    have hone := h .inputConnectivity x hx v t ⟨hv, ht⟩ hset
    obtain ⟨y, hy, hyset⟩ := List.countP_pos_iff.mp (Nat.lt_of_lt_of_eq Nat.one_pos hone.symm)
    exact Option.isSome_iff_exists.mp (List.find?_isSome.mpr ⟨y, hy, hyset⟩)
  generalize hf : (fun x => ((g.fanin x).find? fun y => m.isSet (.routeTo y v.id t)).getD x) = f
  have hdriver {x : NodeId} (hx : x ∈ g.routing) (hset : m.isSet (.routeTo x v.id t) = true) :
      x ∈ g.fanout (f x) ∧ m.isSet (.routeTo (f x) v.id t) = true := by
    obtain ⟨y, hy⟩ := hprev hx hset
    have hfx : f x = y := by rw [← hf]; exact congrArg (Option.getD · x) hy
    have hset := List.find?_some hy
    rw [hfx]
    exact ⟨hg.fanin_iff_fanout.mp (List.mem_of_find?_eq_some hy), hset⟩
  -- A node that drives a routing node is no operand port, so it is no target.
  have hnot {x : NodeId} (hx : x ∈ g.routing) (hset : m.isSet (.routeTo x v.id t) = true) : f x ∉ m.targets g t := by
    intro htarget
    obtain ⟨hxf, hfset⟩ := hdriver hx hset
    obtain ⟨-, q, hq, hkind⟩ := carries_of_mem_targets hd hg h hv ht htarget
    have hunits := (fanout_units_of_port hg h hports hv ht hq (by simp [Node.isOperandPort, hkind]) hfset).2
    exact hg.not_routing_of_unit (hunits x hxf) hx
  have hnext {x : NodeId} (hx : x ∈ g.routing) (hset : m.isSet (.routeTo x v.id t) = true) :
      m.nextNodes g v.id t (f x) = [x] := by
    obtain ⟨hxf, hfset⟩ := hdriver hx hset
    obtain ⟨y, hy⟩ := nextNodes_of_not_target hd hg h hports hv ht (hg.has_fanin (hg.fanin_iff_fanout.mpr hxf)) hfset
      (hnot hx hset)
    have hxy : x ∈ m.nextNodes g v.id t (f x) := mem_nextNodes.mpr ⟨hxf, hset⟩
    rw [hy, List.mem_singleton] at hxy
    rw [hy, hxy]
  obtain ⟨hset, q, hq, hkind⟩ := carries_of_mem_targets hd hg h hv ht hport
  obtain ⟨k, hout, hp, hbefore⟩ := exists_iterate_not_mem (l := g.routing) (f := f)
    (P := fun x => g.Has x ∧ m.isSet (.routeTo x v.id t) = true) (a := port) ⟨⟨q, hq⟩, hset⟩
    (fun x hx hp => ⟨hg.has_fanin (hg.fanin_iff_fanout.mpr (hdriver hx hp.2).1), (hdriver hx hp.2).2⟩)
    (fun x hx hp heq => hnot hx hp.2 (heq ▸ hport))
    (fun x hx y hy hp hq heq => by
      have hxy := hnext hx hp.2
      rw [heq, hnext hy hq.2] at hxy
      exact (List.singleton_inj.mp hxy).symm)
  have hu : f^[k] port ∈ g.units := (hg.unit_or_routing hp.1).resolve_right hout
  refine ⟨_, hu, hp.2, Walks.of_iterate_back (fun j hj => ?_) (SortedSet.mem_toList.mpr hport)⟩
  obtain ⟨hx, hp⟩ := hbefore j hj
  exact ⟨mt SortedSet.mem_toList.mp (hnot hx hp.2), hnext hx hp.2⟩

end

/-- Where operand ports feed units only, all flows of a mapping arrive. -/
theorem arrives_of_portsFeedUnits (hd : d.WellWired) (hg : g.WellWired) (h : Family.AllHold g d m.isSet)
    (hports : g.PortsFeedUnits) : m.Arrives g d := by
  intro v hv t ht
  refine ⟨fun u hu hset => walks_of_portsFeedUnits hd hg h hports hv ht (mem_hosts.mp hu).1 hset, fun port hport => ?_⟩
  obtain ⟨u, hu, hset, hwalk⟩ := walks_back_of_portsFeedUnits hd hg h hports hv ht hport
  exact ⟨u, mem_hosts_of_unit hd hg h hv ht hu hset, hset, hwalk⟩

end Model
end PlaceRoute
