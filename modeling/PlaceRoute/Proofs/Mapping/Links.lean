import PlaceRoute.Proofs.Mapping.Alike
import PlaceRoute.Proofs.Mapping.Supply

/-!
# Mappings onto graphs with ties

A mapping onto a tied graph is a mapping onto the graph without the ties whose flows say which edges they take (`Linked`). Of the
ties it asks only that a flow that is carried at both ends of an edge without a tie takes the edge: that is what a mapping has
(`Graph.Tied.linked_of_allHold`), and from it a mapping is made (`Graph.Tied.allHold_overTies`).
-/

namespace PlaceRoute

/-- Decisions satisfy all families but connectivity, and a flow that is carried takes one edge on and came over one edge. -/
structure Linked (g : Graph) (d : Design) (δ : Key → Bool) (link : Value → Terminal → NodeId → NodeId → Prop) : Prop where
  rest : ∀ f : Family, f ≠ .inputConnectivity → f ≠ .outputConnectivity → f.Holds g d δ
  edge : ∀ {v : Value} {t : Terminal} {x y : NodeId}, link v t x y → y ∈ g.fanout x
  carried : ∀ {v : Value} {t : Terminal} {x y : NodeId}, link v t x y →
    δ (.routeTo x v.id t) = true ∧ δ (.routeTo y v.id t) = true
  next : ∀ x ∈ Family.throughNodes g, ∀ v t, d.HasFlow v t → δ (.routeTo x v.id t) = true → ∃! y, link v t x y
  prev : ∀ y ∈ g.routing, ∀ v t, d.HasFlow v t → δ (.routeTo y v.id t) = true → ∃! x, link v t x y

/-! ## Neighbours over ties -/

/-- The neighbours of a node on one side: nodes on edges without a tie, and ties to others. -/
structure Beside (neighbours : List NodeId) (whole : NodeId → Prop) (via : Nat → NodeId → Prop) (size : Nat) : Prop where
  nodup : neighbours.Nodup
  mem : ∀ {y : Nat}, y ∈ neighbours ↔ whole y ∨ ∃ j b, via j b ∧ y = size + j
  whole_lt : ∀ {y : Nat}, whole y → y < size
  via_inj : ∀ {j : Nat} {b b' : NodeId}, via j b → via j b' → b = b'

namespace Beside

variable {neighbours : List NodeId} {whole : NodeId → Prop} {via : Nat → NodeId → Prop} {size : Nat} {carries : NodeId → Bool}
  (h : Beside neighbours whole via size)
include h

/-- Where one neighbour carries a flow, one node is reached. -/
theorem existsUnique_of_countP (hvia : ∀ j b, via j b → carries (size + j) = true → carries b = true)
    (hone : neighbours.countP carries = 1) :
    ∃! y, carries y = true ∧ (whole y ∨ ∃ j, via j y ∧ carries (size + j) = true) := by
  obtain ⟨z, hz, hzset⟩ := List.countP_pos_iff.mp (Nat.lt_of_lt_of_eq Nat.one_pos hone.symm)
  have hall {y : Nat} (hy : y ∈ neighbours) (hset : carries y = true) : y = z :=
    eq_of_countP_le_one (Nat.le_of_eq hone) hy hz hset hzset
  -- The one neighbour `z` is the node that is reached, or the tie on the edge to it.
  rcases h.mem.mp hz with hw | ⟨j, b, hb, rfl⟩
  · refine ⟨z, ⟨hzset, Or.inl hw⟩, ?_⟩
    rintro y ⟨hset, hy | ⟨j, hy, htie⟩⟩
    · exact hall (h.mem.mpr (Or.inl hy)) hset
    · have hz := hall (h.mem.mpr (Or.inr ⟨j, y, hy, rfl⟩)) htie
      exact absurd (hz ▸ h.whole_lt hw) (Nat.not_lt.mpr (Nat.le_add_right _ _))
  · refine ⟨b, ⟨hvia j b hb hzset, Or.inr ⟨j, hb, hzset⟩⟩, ?_⟩
    rintro y ⟨hset, hy | ⟨j', hy, htie⟩⟩
    · have hz := hall (h.mem.mpr (Or.inl hy)) hset
      exact absurd (hz ▸ h.whole_lt hy) (Nat.not_lt.mpr (Nat.le_add_right _ _))
    · obtain rfl : j' = j := Nat.add_left_cancel (hall (h.mem.mpr (Or.inr ⟨j', y, hy, rfl⟩)) htie)
      exact h.via_inj hy hb

/-- Where one node is reached over one edge, one neighbour carries the flow. -/
theorem countP_of_existsUnique
    (hone : ∀ j j' b, via j b → via j' b → carries (size + j) = true → carries (size + j') = true → j = j')
    (hnot : ∀ j b, via j b → carries (size + j) = true → carries b = true ∧ ¬ whole b)
    (hex : ∃! y, carries y = true ∧ (whole y ∨ ∃ j, via j y ∧ carries (size + j) = true)) : neighbours.countP carries = 1 := by
  obtain ⟨y, ⟨hset, hy⟩, honly⟩ := hex
  rcases hy with hw | ⟨j, hj, htie⟩
  · refine countP_eq_one h.nodup (h.mem.mpr (Or.inl hw)) hset fun z hz hzset => ?_
    rcases h.mem.mp hz with hzw | ⟨j, b, hb, rfl⟩
    · exact honly z ⟨hzset, Or.inl hzw⟩
    · obtain ⟨hbset, hbw⟩ := hnot j b hb hzset
      exact absurd (honly b ⟨hbset, Or.inr ⟨j, hb, hzset⟩⟩ ▸ hw) hbw
  · refine countP_eq_one h.nodup (h.mem.mpr (Or.inr ⟨j, y, hj, rfl⟩)) htie fun z hz hzset => ?_
    rcases h.mem.mp hz with hzw | ⟨j', b, hb, rfl⟩
    · exact absurd (honly z ⟨hzset, Or.inl hzw⟩ ▸ hzw) (hnot j y hj htie).2
    · obtain rfl := honly b ⟨(hnot j' b hb hzset).1, Or.inr ⟨j', hb, hzset⟩⟩
      rw [hone j' j b hb hj hzset htie]

end Beside

namespace Graph

theorem WellWired.mem_throughNodes {g : Graph} (hg : g.WellWired) {i : NodeId} :
    i ∈ Family.throughNodes g ↔ ∃ n, g.node? i = some n ∧ n.isOperandPort = false := by
  unfold Family.throughNodes
  simp only [List.mem_map, List.mem_filter, Bool.not_eq_true']
  constructor
  · rintro ⟨n, ⟨hn, hport⟩, rfl⟩
    exact ⟨n, hg.node?_of_mem hn, hport⟩
  · rintro ⟨n, hn, hport⟩
    exact ⟨n, ⟨Array.mem_toList_iff.mpr (Array.mem_of_getElem? hn), hport⟩, hg.id hn⟩

theorem WellWired.mem_throughNodes_of_kind?_eq {g g' : Graph} (hg : g.WellWired) (hg' : g'.WellWired) {i : NodeId}
    (h : g'.kind? i = g.kind? i) (hi : i ∈ Family.throughNodes g) : i ∈ Family.throughNodes g' := by
  obtain ⟨n, hn, hport⟩ := hg.mem_throughNodes.mp hi
  obtain ⟨n', hn', hk⟩ := exists_node_of_kind?_eq h hn
  refine hg'.mem_throughNodes.mpr ⟨n', hn', ?_⟩
  unfold Node.isOperandPort at hport ⊢
  rwa [hk]

namespace Tied

variable {g₀ g : Graph} {whole : NodeId → NodeId → Prop} {ends : List (NodeId × NodeId)} (h : g₀.Tied g whole ends)
  {d : Design} {δ : Key → Bool} {v : Value} {t : Terminal} {j x y : Nat}
include h

theorem beside_next (hg₀ : g₀.WellWired) (hx : x < g₀.nodes.size) :
    Beside (g.fanout x) (whole x) (fun j y => ends[j]? = some (x, y)) g₀.nodes.size where
  nodup := nodup_fanout
  mem := h.mem_fanout_old hx
  whole_lt hxy := (h.lt_of_whole hg₀ hxy).2
  via_inj hj hj' := congrArg Prod.snd (Option.some.inj (hj.symm.trans hj'))

theorem beside_prev (hg₀ : g₀.WellWired) (hg : g.WellWired) (hy : y < g₀.nodes.size) :
    Beside (g.fanin y) (whole · y) (fun j x => ends[j]? = some (x, y)) g₀.nodes.size where
  nodup := nodup_fanin
  mem := h.mem_fanin_old hg hy
  whole_lt hxy := (h.lt_of_whole hg₀ hxy).1
  via_inj hj hj' := congrArg Prod.fst (Option.some.inj (hj.symm.trans hj'))

/-- Flows are followed through ties. -/
theorem tie_mem (hg : g.WellWired) (hj : ends[j]? = some (x, y)) :
    g₀.nodes.size + j ∈ g.routing ∧ g₀.nodes.size + j ∈ Family.throughNodes g := by
  obtain ⟨n, hn, hk⟩ := Option.map_eq_some_iff.mp (h.tie (List.getElem?_eq_some_iff.mp hj).1)
  refine ⟨hg.routing.mpr ⟨n, hn, ?_⟩, hg.mem_throughNodes.mpr ⟨n, hn, ?_⟩⟩
  · unfold Node.isUnit
    rw [hk]
  · unfold Node.isOperandPort
    rw [hk]

/-! ## From mappings to links -/

variable (hg₀ : g₀.WellWired) (hg : g.WellWired)
include hg₀ hg

/-- A flow over a tie comes from the one end and goes to the other. -/
theorem carried_of_tie (hall : Family.AllHold g d δ) (hflow : d.HasFlow v t) (hj : ends[j]? = some (x, y))
    (hset : δ (.routeTo (g₀.nodes.size + j) v.id t) = true) :
    δ (.routeTo x v.id t) = true ∧ δ (.routeTo y v.id t) = true := by
  obtain ⟨hrouting, hthrough⟩ := h.tie_mem hg hj
  have hin := hall .inputConnectivity _ hrouting v t hflow hset
  have hout := hall .outputConnectivity _ hthrough v t hflow hset
  obtain ⟨a, ha, haset⟩ := List.countP_pos_iff.mp (Nat.lt_of_lt_of_eq Nat.one_pos hin.symm)
  obtain ⟨b, hb, hbset⟩ := List.countP_pos_iff.mp (Nat.lt_of_lt_of_eq Nat.one_pos hout.symm)
  obtain ⟨y', hy'⟩ := (h.mem_fanin_tie hg₀ hg).mp ha
  obtain ⟨x', hx'⟩ := (h.mem_fanout_tie hg₀).mp hb
  cases hj.symm.trans hy'
  cases hj.symm.trans hx'
  exact ⟨haset, hbset⟩

end Tied

/-- The edges that the flows of a mapping take: those without a tie whose ends both carry the flow, and those whose tie does. -/
def links (g₀ : Graph) (whole : NodeId → NodeId → Prop) (ends : List (NodeId × NodeId)) (δ : Key → Bool) (v : Value)
    (t : Terminal) (x y : NodeId) : Prop :=
  δ (.routeTo x v.id t) = true ∧ δ (.routeTo y v.id t) = true ∧
    (whole x y ∨ ∃ j, ends[j]? = some (x, y) ∧ δ (.routeTo (g₀.nodes.size + j) v.id t) = true)

namespace Tied

variable {g₀ g : Graph} {whole : NodeId → NodeId → Prop} {ends : List (NodeId × NodeId)} (h : g₀.Tied g whole ends)
  (hg₀ : g₀.WellWired) (hg : g.WellWired) {d : Design} {δ : Key → Bool}
include h hg₀ hg

/-- A mapping onto the tied graph has links on the graph without ties. -/
theorem linked_of_allHold (hall : Family.AllHold g d δ) : Linked g₀ d δ (g₀.links whole ends δ) where
  rest f hin hout := by
    have halike : Alike g₀ g δ δ g₀.nodes.size := h.alike hg₀ hg fun _ _ => rfl
    have hids : ∀ n ∈ g₀.ids, n ∈ g.ids := fun n hn => by
      have hlt := has_iff_lt.mp (hg₀.mem_ids.mp hn)
      exact hg.mem_ids.mpr (has_iff_lt.mpr (h.size ▸ Nat.lt_add_right _ hlt))
    cases f with
    | routeExclusivity => exact fun n hn => hall .routeExclusivity n (hids n hn)
    | routingResourceUsage => exact fun n hn => hall .routingResourceUsage n (hids n hn)
    | inputConnectivity => exact absurd rfl hin
    | outputConnectivity => exact absurd rfl hout
    | _ => exact halike.symm.holds (by decide) (hall _)
  edge := fun ⟨_, _, htaken⟩ => h.edge.mpr (htaken.imp_right fun ⟨_, hj, _⟩ => List.mem_of_getElem? hj)
  carried := fun ⟨hx, hy, _⟩ => ⟨hx, hy⟩
  next x hx v t hflow hset := by
    obtain ⟨n, hn, -⟩ := hg₀.mem_throughNodes.mp hx
    have hlt := has_iff_lt.mp ⟨n, hn⟩
    have hone := hall .outputConnectivity x (hg₀.mem_throughNodes_of_kind?_eq hg (h.kind hlt) hx) v t hflow hset
    have hvia (j y : Nat) (hj : ends[j]? = some (x, y)) (htie : δ (.routeTo (g₀.nodes.size + j) v.id t) = true) :=
      (h.carried_of_tie hg₀ hg hall hflow hj htie).2
    have hex := (h.beside_next hg₀ hlt).existsUnique_of_countP hvia hone
    exact (existsUnique_congr fun y => and_iff_right hset).mpr hex
  prev y hy v t hflow hset := by
    have hlt := has_iff_lt.mp (hg₀.has_of_routing hy)
    have hone := hall .inputConnectivity y (hg₀.mem_routing_of_kind?_eq hg (h.kind hlt) hy) v t hflow hset
    have hvia (j x : Nat) (hj : ends[j]? = some (x, y)) (htie : δ (.routeTo (g₀.nodes.size + j) v.id t) = true) :=
      (h.carried_of_tie hg₀ hg hall hflow hj htie).1
    have hex := (h.beside_prev hg₀ hg hlt).existsUnique_of_countP hvia hone
    refine (existsUnique_congr fun x => ?_).mpr hex
    exact and_congr_right fun _ => and_iff_right hset

end Tied

/-! ## From links to mappings -/

section
variable (g₀ : Graph) (d : Design) (whole : NodeId → NodeId → Prop) (ends : List (NodeId × NodeId))
  (link : Value → Terminal → NodeId → NodeId → Prop)

/-- A flow takes the edge with the tie: the first of those between its ends, if all of these have ties. -/
def Crosses (j : Nat) (v : Value) (t : Terminal) : Prop :=
  ∃ x y, ends[j]? = some (x, y) ∧ ends.idxOf (x, y) = j ∧ ¬ whole x y ∧ link v t x y

open Classical in
/-- Decisions on the old nodes, and flows on the ties that they cross. -/
noncomputable def overTies (δ : Key → Bool) : Key → Bool
  | .place u op => δ (.place u op)
  | .route n i =>
    if n < g₀.nodes.size then δ (.route n i)
    else decide (∃ v ∈ d.values, v.id = i ∧ ∃ t ∈ v.dsts, Crosses whole ends link (n - g₀.nodes.size) v t)
  | .routeTo n i t =>
    if n < g₀.nodes.size then δ (.routeTo n i t)
    else decide (∃ v ∈ d.values, v.id = i ∧ Crosses whole ends link (n - g₀.nodes.size) v t)

end

section
variable {g₀ g : Graph} {d : Design} {whole : NodeId → NodeId → Prop} {ends : List (NodeId × NodeId)}
  {link : Value → Terminal → NodeId → NodeId → Prop} {δ : Key → Bool} {v : Value} {t : Terminal} {j x y : Nat}

theorem overTies_old {k : Key} (hk : k.node < g₀.nodes.size) : g₀.overTies d whole ends link δ k = δ k := by
  cases k with
  | place u op => rfl
  | route n i => exact if_pos hk
  | routeTo n i t => exact if_pos hk

theorem overTies_routeTo {i : ValueId} (hx : x < g₀.nodes.size) :
    g₀.overTies d whole ends link δ (.routeTo x i t) = δ (.routeTo x i t) := if_pos hx

theorem overTies_route {i : ValueId} (hx : x < g₀.nodes.size) :
    g₀.overTies d whole ends link δ (.route x i) = δ (.route x i) := if_pos hx

open Classical in
theorem overTies_routeTo_tie (hd : d.WellWired) (hv : v ∈ d.values) :
    g₀.overTies d whole ends link δ (.routeTo (g₀.nodes.size + j) v.id t) = true ↔ Crosses whole ends link j v t := by
  rw [overTies, if_neg (Nat.not_lt.mpr (Nat.le_add_right _ _)), decide_eq_true_iff, Nat.add_sub_cancel_left]
  constructor
  · rintro ⟨v', hv', hid, hcross⟩
    exact hd.value_inj hv' hv hid ▸ hcross
  · exact fun hcross => ⟨v, hv, rfl, hcross⟩

open Classical in
theorem overTies_route_tie (hd : d.WellWired) (hv : v ∈ d.values) :
    g₀.overTies d whole ends link δ (.route (g₀.nodes.size + j) v.id) = true ↔ ∃ t ∈ v.dsts, Crosses whole ends link j v t := by
  rw [overTies, if_neg (Nat.not_lt.mpr (Nat.le_add_right _ _)), decide_eq_true_iff, Nat.add_sub_cancel_left]
  constructor
  · rintro ⟨v', hv', hid, hcross⟩
    exact hd.value_inj hv' hv hid ▸ hcross
  · exact fun hcross => ⟨v, hv, rfl, hcross⟩

theorem Crosses.link_of_ends (hcross : Crosses whole ends link j v t) (hj : ends[j]? = some (x, y)) :
    ends.idxOf (x, y) = j ∧ ¬ whole x y ∧ link v t x y := by
  obtain ⟨x', y', hj', hcross⟩ := hcross
  cases hj.symm.trans hj'
  exact hcross

/-- A flow that is carried at both ends of an edge without a tie takes the edge. -/
def TakesWhole (d : Design) (whole : NodeId → NodeId → Prop) (δ : Key → Bool) (link : Value → Terminal → NodeId → NodeId → Prop) :
    Prop :=
  ∀ x y, whole x y → ∀ v t, d.HasFlow v t → δ (.routeTo x v.id t) = true → δ (.routeTo y v.id t) = true → link v t x y

namespace Tied

variable (h : g₀.Tied g whole ends) (hg₀ : g₀.WellWired) (hd : d.WellWired) (hlinked : Linked g₀ d δ link)
  (hwhole : TakesWhole d whole δ link)
include h hg₀ hd hlinked hwhole

/-- Flows take the edges that they are meant to take. -/
theorem links_overTies_iff (hflow : d.HasFlow v t) :
    g₀.links whole ends (g₀.overTies d whole ends link δ) v t x y ↔ link v t x y := by
  constructor
  · rintro ⟨hx, hy, hw | ⟨j, hj, htie⟩⟩
    · obtain ⟨hxlt, hylt⟩ := h.lt_of_whole hg₀ hw
      rw [overTies_routeTo hxlt] at hx
      rw [overTies_routeTo hylt] at hy
      exact hwhole x y hw v t hflow hx hy
    · exact (((overTies_routeTo_tie hd hflow.1).mp htie).link_of_ends hj).2.2
  · intro hlink
    obtain ⟨hx, hy⟩ := hlinked.carried hlink
    obtain ⟨hxlt, hylt⟩ := hg₀.lt_of_fanout (hlinked.edge hlink)
    refine ⟨(overTies_routeTo hxlt).trans hx, (overTies_routeTo hylt).trans hy, ?_⟩
    by_cases hw : whole x y
    · exact Or.inl hw
    · have hj := List.getElem?_idxOf ((h.edge.mp (hlinked.edge hlink)).resolve_left hw)
      exact Or.inr ⟨_, hj, (overTies_routeTo_tie hd hflow.1).mpr ⟨x, y, hj, rfl, hw, hlink⟩⟩

omit hwhole in
theorem nodesExclusive_overTies (hg : g.WellWired) : Family.NodesExclusive g d (g₀.overTies d whole ends link δ) := by
  have hold : ∀ x < g₀.nodes.size, d.values.countP (fun v => δ (.route x v.id)) ≤ 1 := fun x hx =>
    hlinked.rest .routeExclusivity nofun nofun x (hg₀.mem_ids.mpr (has_iff_lt.mpr hx))
  intro n hn
  rcases h.old_or_tie (hg.mem_ids.mp hn) with hlt | ⟨j, hj, rfl⟩
  · simp only [overTies_route hlt]
    exact hold n hlt
  · obtain ⟨⟨x, y⟩, hj⟩ : ∃ e, ends[j]? = some e := ⟨_, List.getElem?_eq_getElem hj⟩
    have hx := (h.lt_of_ends hg₀ hj).1
    -- A tie carries no more than the node that it comes from.
    refine Nat.le_trans (List.countP_mono_left fun v hv hset => ?_) (hold x hx)
    obtain ⟨t, ht, hcross⟩ := (overTies_route_tie hd hv).mp hset
    have hcarried := (hlinked.carried (hcross.link_of_ends hj).2.2).1
    exact (hlinked.rest .routingResourceUsage nofun nofun x (hg₀.mem_ids.mpr (has_iff_lt.mpr hx)) v hv).mpr ⟨t, ht, hcarried⟩

omit hg₀ hlinked hwhole in
theorem netsAreFlows_overTies (hg : g.WellWired) (hold : Family.NetsAreFlows g₀ d δ) (hg₀ : g₀.WellWired) :
    Family.NetsAreFlows g d (g₀.overTies d whole ends link δ) := by
  intro n hn v hv
  rcases h.old_or_tie (hg.mem_ids.mp hn) with hlt | ⟨j, hj, rfl⟩
  · simp only [overTies_route hlt, overTies_routeTo hlt]
    exact hold n (hg₀.mem_ids.mpr (has_iff_lt.mpr hlt)) v hv
  · rw [overTies_route_tie hd hv]
    exact exists_congr fun t => and_congr_right fun _ => (overTies_routeTo_tie hd hv).symm

omit h hg₀ hlinked hwhole in
/-- Of the ties between two nodes a flow crosses one at most. -/
theorem eq_of_crosses (hflow : d.HasFlow v t) {j' : Nat} (hj : ends[j]? = some (x, y)) (hj' : ends[j']? = some (x, y))
    (hset : g₀.overTies d whole ends link δ (.routeTo (g₀.nodes.size + j) v.id t) = true)
    (hset' : g₀.overTies d whole ends link δ (.routeTo (g₀.nodes.size + j') v.id t) = true) : j = j' := by
  have hidx := (((overTies_routeTo_tie hd hflow.1).mp hset).link_of_ends hj).1
  have hidx' := (((overTies_routeTo_tie hd hflow.1).mp hset').link_of_ends hj').1
  exact hidx.symm.trans hidx'

omit hwhole in
/-- A flow on a tie is carried at both ends of its edge, and these are not joined otherwise. -/
theorem carried_of_crosses (hflow : d.HasFlow v t) (hj : ends[j]? = some (x, y))
    (hset : g₀.overTies d whole ends link δ (.routeTo (g₀.nodes.size + j) v.id t) = true) :
    g₀.overTies d whole ends link δ (.routeTo x v.id t) = true ∧ g₀.overTies d whole ends link δ (.routeTo y v.id t) = true ∧
      ¬ whole x y := by
  obtain ⟨-, hw, hlink⟩ := ((overTies_routeTo_tie hd hflow.1).mp hset).link_of_ends hj
  obtain ⟨hx, hy⟩ := hlinked.carried hlink
  obtain ⟨hxlt, hylt⟩ := h.lt_of_ends hg₀ hj
  exact ⟨(overTies_routeTo hxlt).trans hx, (overTies_routeTo hylt).trans hy, hw⟩

theorem inputConnected_overTies (hg : g.WellWired) :
    Family.Connected d (g₀.overTies d whole ends link δ) g.routing g.fanin := by
  intro n hn v t hflow hset
  rcases h.old_or_tie (hg.has_of_routing hn) with hlt | ⟨j, hj, rfl⟩
  · have hn₀ := hg.mem_routing_of_kind?_eq hg₀ (h.kind hlt).symm hn
    have hex := hlinked.prev n hn₀ v t hflow ((overTies_routeTo hlt).symm.trans hset)
    refine (h.beside_prev hg₀ hg hlt).countP_of_existsUnique (fun j j' x => eq_of_crosses hd hflow) (fun j x hj htie => ?_)
      ((existsUnique_congr fun x => ?_).mp hex)
    · obtain ⟨hx, -, hw⟩ := h.carried_of_crosses hg₀ hd hlinked hflow hj htie
      exact ⟨hx, hw⟩
    · rw [← h.links_overTies_iff hg₀ hd hlinked hwhole hflow]
      exact and_congr_right fun _ => and_iff_right hset
  · obtain ⟨⟨x, y⟩, hj⟩ : ∃ e, ends[j]? = some e := ⟨_, List.getElem?_eq_getElem hj⟩
    obtain ⟨hx, -, -⟩ := h.carried_of_crosses hg₀ hd hlinked hflow hj hset
    refine countP_eq_one nodup_fanin ((h.mem_fanin_tie hg₀ hg).mpr ⟨y, hj⟩) hx fun z hz _ => ?_
    obtain ⟨y', hj'⟩ := (h.mem_fanin_tie hg₀ hg).mp hz
    exact congrArg Prod.fst (Option.some.inj (hj'.symm.trans hj))

theorem outputConnected_overTies (hg : g.WellWired) :
    Family.Connected d (g₀.overTies d whole ends link δ) (Family.throughNodes g) g.fanout := by
  intro n hn v t hflow hset
  obtain ⟨node, hnode, -⟩ := hg.mem_throughNodes.mp hn
  rcases h.old_or_tie ⟨node, hnode⟩ with hlt | ⟨j, hj, rfl⟩
  · have hn₀ := hg.mem_throughNodes_of_kind?_eq hg₀ (h.kind hlt).symm hn
    have hex := hlinked.next n hn₀ v t hflow ((overTies_routeTo hlt).symm.trans hset)
    refine (h.beside_next hg₀ hlt).countP_of_existsUnique (fun j j' y => eq_of_crosses hd hflow) (fun j y hj htie => ?_)
      ((existsUnique_congr fun y => ?_).mp hex)
    · exact (h.carried_of_crosses hg₀ hd hlinked hflow hj htie).2
    · rw [← h.links_overTies_iff hg₀ hd hlinked hwhole hflow]
      exact and_iff_right hset
  · obtain ⟨⟨x, y⟩, hj⟩ : ∃ e, ends[j]? = some e := ⟨_, List.getElem?_eq_getElem hj⟩
    obtain ⟨-, hy, -⟩ := h.carried_of_crosses hg₀ hd hlinked hflow hj hset
    refine countP_eq_one nodup_fanout ((h.mem_fanout_tie hg₀).mpr ⟨x, hj⟩) hy fun z hz _ => ?_
    obtain ⟨x', hj'⟩ := (h.mem_fanout_tie hg₀).mp hz
    exact congrArg Prod.snd (Option.some.inj (hj'.symm.trans hj))

/-- Links on the graph without ties make a mapping onto the tied graph. -/
theorem allHold_overTies (hg : g.WellWired) : Family.AllHold g d (g₀.overTies d whole ends link δ) := by
  have halike : Alike g₀ g δ (g₀.overTies d whole ends link δ) g₀.nodes.size := h.alike hg₀ hg fun _ => overTies_old
  intro f
  cases f with
  | inputConnectivity => exact h.inputConnected_overTies hg₀ hd hlinked hwhole hg
  | outputConnectivity => exact h.outputConnected_overTies hg₀ hd hlinked hwhole hg
  | routeExclusivity => exact h.nodesExclusive_overTies hg₀ hd hlinked hg
  | routingResourceUsage => exact h.netsAreFlows_overTies hd hg (hlinked.rest .routingResourceUsage nofun nofun) hg₀
  | _ => exact halike.holds (by decide) (hlinked.rest _ nofun nofun)

end Tied
end
end Graph
end PlaceRoute
