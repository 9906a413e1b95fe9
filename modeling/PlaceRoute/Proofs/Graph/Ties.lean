import Mathlib.Data.List.Sort
import PlaceRoute.Proofs.Graph.Split

/-!
# Graphs with tie nodes

`Graph.Tied g₀ g whole ends` says that `g` is `g₀` with tie nodes on some edges between muxes: they come behind all other nodes,
which keep their numbers and kinds. The graph of a split draft is the graph of the draft before, tied (`Draft.Splits.tied`).
-/

namespace PlaceRoute
namespace Graph

/-- The kind of a node that is there. -/
def kind? (g : Graph) (i : NodeId) : Option NodeKind := (g.node? i).map (·.kind)

/-- The graph `g` is `g₀` with ties behind its nodes. The tie at a place of `ends` comes between these two nodes; edges join
the nodes of `whole` as before. -/
structure Tied (g₀ g : Graph) (whole : NodeId → NodeId → Prop) (ends : List (NodeId × NodeId)) : Prop where
  size : g.nodes.size = g₀.nodes.size + ends.length
  kind : ∀ {i : Nat}, i < g₀.nodes.size → g.kind? i = g₀.kind? i
  tie : ∀ {j : Nat}, j < ends.length → g.kind? (g₀.nodes.size + j) = some .tie
  fanout : ∀ {x y : Nat}, y ∈ g.fanout x ↔ whole x y ∨
    ∃ j a b, ends[j]? = some (a, b) ∧ (x = a ∧ y = g₀.nodes.size + j ∨ x = g₀.nodes.size + j ∧ y = b)
  edge : ∀ {x y : NodeId}, y ∈ g₀.fanout x ↔ whole x y ∨ (x, y) ∈ ends
  mux : ∀ {x y : NodeId}, (x, y) ∈ ends → g₀.kind? x = some .mux ∧ g₀.kind? y = some .mux

/-! ## Nodes and neighbours -/

section
variable {g g' : Graph} {i : NodeId} {n : Node}

theorem has_iff_lt : g.Has i ↔ i < g.nodes.size := by
  unfold Graph.Has Graph.node?
  constructor
  · rintro ⟨n, hn⟩
    exact (Array.getElem?_eq_some_iff.mp hn).1
  · exact fun hi => ⟨_, Array.getElem?_eq_getElem hi⟩

theorem has_iff_kind? : g.Has i ↔ ∃ k, g.kind? i = some k := by
  unfold Graph.Has Graph.kind?
  cases g.node? i <;> simp

/-- A node of the same kind in another graph. -/
theorem exists_node_of_kind?_eq (h : g'.kind? i = g.kind? i) (hn : g.node? i = some n) :
    ∃ n', g'.node? i = some n' ∧ n'.kind = n.kind := by
  unfold Graph.kind? at h
  rw [hn, Option.map_some] at h
  exact Option.map_eq_some_iff.mp h

theorem WellWired.lt_of_fanout {x y : NodeId} (hg : g.WellWired) (hxy : y ∈ g.fanout x) : x < g.nodes.size ∧ y < g.nodes.size :=
  ⟨has_iff_lt.mp (has_of_mem_fanout hxy), has_iff_lt.mp (hg.has_fanout hxy)⟩

theorem WellWired.mem_units_of_kind?_eq (hg : g.WellWired) (hg' : g'.WellWired) (h : g'.kind? i = g.kind? i) (hi : i ∈ g.units) :
    i ∈ g'.units := by
  obtain ⟨n, hn, hunit⟩ := hg.units.mp hi
  obtain ⟨n', hn', hk⟩ := exists_node_of_kind?_eq h hn
  refine hg'.units.mpr ⟨n', hn', ?_⟩
  unfold Node.isUnit at hunit ⊢
  rwa [hk]

theorem WellWired.mem_routing_of_kind?_eq (hg : g.WellWired) (hg' : g'.WellWired) (h : g'.kind? i = g.kind? i)
    (hi : i ∈ g.routing) : i ∈ g'.routing := by
  obtain ⟨n, hn, hunit⟩ := hg.routing.mp hi
  obtain ⟨n', hn', hk⟩ := exists_node_of_kind?_eq h hn
  refine hg'.routing.mpr ⟨n', hn', ?_⟩
  unfold Node.isUnit at hunit ⊢
  rwa [hk]

end

namespace Tied

variable {g₀ g : Graph} {whole : NodeId → NodeId → Prop} {ends : List (NodeId × NodeId)} (h : g₀.Tied g whole ends)
  {i j x y : Nat}
include h

theorem mem_fanout_old (hx : x < g₀.nodes.size) :
    y ∈ g.fanout x ↔ whole x y ∨ ∃ j b, ends[j]? = some (x, b) ∧ y = g₀.nodes.size + j := by
  rw [h.fanout]
  refine or_congr_right ⟨?_, fun ⟨j, b, hj, hy⟩ => ⟨j, x, b, hj, Or.inl ⟨rfl, hy⟩⟩⟩
  rintro ⟨j, a, b, hj, ⟨rfl, hy⟩ | ⟨rfl, -⟩⟩
  · exact ⟨j, b, hj, hy⟩
  · exact absurd hx (Nat.not_lt.mpr (Nat.le_add_right _ _))

theorem mem_fanin_old (hg : g.WellWired) (hy : y < g₀.nodes.size) :
    x ∈ g.fanin y ↔ whole x y ∨ ∃ j a, ends[j]? = some (a, y) ∧ x = g₀.nodes.size + j := by
  rw [hg.fanin_iff_fanout, h.fanout]
  refine or_congr_right ⟨?_, fun ⟨j, a, hj, hx⟩ => ⟨j, a, y, hj, Or.inr ⟨hx, rfl⟩⟩⟩
  rintro ⟨j, a, b, hj, ⟨-, rfl⟩ | ⟨hx, rfl⟩⟩
  · exact absurd hy (Nat.not_lt.mpr (Nat.le_add_right _ _))
  · exact ⟨j, a, hj, hx⟩

section
variable (hg₀ : g₀.WellWired)
include hg₀

theorem lt_of_whole (hxy : whole x y) : x < g₀.nodes.size ∧ y < g₀.nodes.size :=
  hg₀.lt_of_fanout (h.edge.mpr (Or.inl hxy))

theorem lt_of_ends (hj : ends[j]? = some (x, y)) : x < g₀.nodes.size ∧ y < g₀.nodes.size :=
  hg₀.lt_of_fanout (h.edge.mpr (Or.inr (List.mem_of_getElem? hj)))

theorem mem_fanout_tie : y ∈ g.fanout (g₀.nodes.size + j) ↔ ∃ a, ends[j]? = some (a, y) := by
  rw [h.fanout]
  constructor
  · rintro (hxy | ⟨j', a, b, hj, ⟨rfl, -⟩ | ⟨hx, rfl⟩⟩)
    · exact absurd (h.lt_of_whole hg₀ hxy).1 (Nat.not_lt.mpr (Nat.le_add_right _ _))
    · exact absurd (h.lt_of_ends hg₀ hj).1 (Nat.not_lt.mpr (Nat.le_add_right _ _))
    · exact ⟨a, Nat.add_left_cancel hx ▸ hj⟩
  · rintro ⟨a, hj⟩
    exact Or.inr ⟨j, a, y, hj, Or.inr ⟨rfl, rfl⟩⟩

theorem mem_fanin_tie (hg : g.WellWired) : x ∈ g.fanin (g₀.nodes.size + j) ↔ ∃ b, ends[j]? = some (x, b) := by
  rw [hg.fanin_iff_fanout, h.fanout]
  constructor
  · rintro (hxy | ⟨j', a, b, hj, ⟨rfl, hy⟩ | ⟨-, rfl⟩⟩)
    · exact absurd (h.lt_of_whole hg₀ hxy).2 (Nat.not_lt.mpr (Nat.le_add_right _ _))
    · exact ⟨b, Nat.add_left_cancel hy ▸ hj⟩
    · exact absurd (h.lt_of_ends hg₀ hj).2 (Nat.not_lt.mpr (Nat.le_add_right _ _))
  · rintro ⟨b, hj⟩
    exact Or.inr ⟨j, x, b, hj, Or.inl ⟨rfl, rfl⟩⟩

end

/-- A node is one of the old ones or a tie. -/
theorem old_or_tie (hi : g.Has i) : i < g₀.nodes.size ∨ ∃ j < ends.length, i = g₀.nodes.size + j := by
  have hlt := h.size ▸ has_iff_lt.mp hi
  by_cases hi : i < g₀.nodes.size
  · exact Or.inl hi
  · obtain ⟨j, rfl⟩ := Nat.exists_eq_add_of_le (Nat.le_of_not_lt hi)
    exact Or.inr ⟨j, Nat.lt_of_add_lt_add_left hlt, rfl⟩

/-- Units are the same. -/
theorem units_perm (hg₀ : g₀.WellWired) (hg : g.WellWired) : g.units.Perm g₀.units := by
  refine (List.perm_ext_iff_of_nodup hg.units_nodup hg₀.units_nodup).mpr fun i => ⟨fun hi => ?_, fun hi => ?_⟩
  · rcases h.old_or_tie (hg.has_of_unit hi) with hlt | ⟨j, hj, rfl⟩
    · exact hg.mem_units_of_kind?_eq hg₀ (h.kind hlt).symm hi
    · obtain ⟨n, hn, hunit⟩ := hg.units.mp hi
      obtain ⟨n', hn', hk⟩ := Option.map_eq_some_iff.mp (h.tie hj)
      unfold Node.isUnit at hunit
      rw [Option.some.inj (hn.symm.trans hn'), hk] at hunit
      cases hunit
  · exact hg₀.mem_units_of_kind?_eq hg (h.kind (has_iff_lt.mp (hg₀.has_of_unit hi))) hi

end Tied

namespace Draft

variable {base d : Draft} {cut : List Edge} {e : Edge} {contexts contexts' : Nat} {g g₀ : Graph} {i j x y : Nat}

/-! ## Numbering -/

/-- Numbers among more nodes, when the first of these are the same. -/
theorem renumberKind_of_append {left left' : List NodeId} (hleft : left.Nodup) (hall : (left ++ left').Nodup)
    {kind kind' : NodeKind} (h : renumberKind left kind = .ok kind') : renumberKind (left ++ left') kind = .ok kind' := by
  unfold renumberKind at h ⊢
  split at h
  · next ops operands =>
    obtain ⟨entries, hentries, h⟩ := bind_eq_ok h
    dsimp only
    rw [mapM_imp (fun entry _ entry' hentry => ?_) hentries]
    · exact h
    · obtain ⟨p, hp, hentry⟩ := bind_eq_ok hentry
      have hplace := (renumber_eq_ok_iff hleft).mp hp
      rw [← List.getElem?_append_left (List.getElem?_eq_some_iff.mp hplace).1] at hplace
      show renumber (left ++ left') entry.2 >>= _ = _
      rw [(renumber_eq_ok_iff hall).mpr hplace]
      exact hentry
  · next hother => exact h

theorem size_finish (h : d.finish contexts = .ok g) : g.nodes.size = d.ids.length := by
  obtain ⟨nodes, hnodes, hg, -⟩ := finish_eq_ok h
  rw [hg, List.size_toArray, length_mapM hnodes, ids, List.length_map]

section
variable (hd : d.Sound) (h : d.finish contexts = .ok g)
include hd h

/-- The kind of a node of the graph. -/
theorem kind?_finish {kind' : NodeKind} : g.kind? j = some kind' ↔
    ∃ i kind, d.ids[j]? = some i ∧ d.kind? i = some kind ∧ renumberKind d.ids kind = .ok kind' := by
  unfold Graph.kind?
  rw [Option.map_eq_some_iff]
  constructor
  · rintro ⟨n', hn', rfl⟩
    obtain ⟨n, hj, hn, hn'⟩ := (node?_finish hd h).mp hn'
    exact ⟨n.id, n.kind, hj, kind?_of_node? hn, (renumberNode_eq_ok hn').2.2.1⟩
  · rintro ⟨i, kind, hj, hkind, hkind'⟩
    obtain ⟨n, hn, rfl⟩ := Option.map_eq_some_iff.mp hkind
    rw [← hd.id hn] at hj hn
    obtain ⟨n', hn', hnode⟩ := exists_finish hd h hj hn
    exact ⟨n', hn', Except.ok.inj ((renumberNode_eq_ok hnode).2.2.1.symm.trans hkind')⟩

/-- Routing nodes are as in the draft. -/
theorem kind?_finish_of_routing {k : NodeKind} (hk : (k matches .functionalUnit _ _) = false) :
    g.kind? j = some k ↔ ∃ i, d.ids[j]? = some i ∧ d.kind? i = some k := by
  rw [kind?_finish hd h]
  refine exists_congr fun i => ⟨?_, fun ⟨hj, hi⟩ => ⟨k, hj, hi, ?_⟩⟩
  · rintro ⟨old, hj, hi, hnew⟩
    rcases renumberKind_eq_ok (nodup_ids hd) hnew with ⟨ops, operands, operands', -, hunit, -⟩ | ⟨-, rfl⟩
    · rw [hunit] at hk
      cases hk
    · exact ⟨hj, hi⟩
  · unfold renumberKind
    split
    · cases hk
    · rfl

end

/-- A number stands at one place. -/
theorem eq_of_getElem?_ids (hd : d.Sound) {p : NodeId} (hi : d.ids[i]? = some p) (hj : d.ids[j]? = some p) : i = j :=
  Except.ok.inj (((renumber_eq_ok_iff (nodup_ids hd)).mpr hi).symm.trans ((renumber_eq_ok_iff (nodup_ids hd)).mpr hj))

/-! ## The graph of a split draft -/

/-- An edge with a property joins the nodes with these numbers. -/
def Joins (d : Draft) (P : Edge → Prop) (x y : NodeId) : Prop :=
  ∃ e, P e ∧ d.ids[x]? = some e.src ∧ d.ids[y]? = some e.dst

/-- The numbers of the ends of an edge. -/
def endsOf (d : Draft) (e : Edge) : NodeId × NodeId := (d.ids.idxOf e.src, d.ids.idxOf e.dst)

theorem endsOf_eq_iff (hd : d.Sound) (he : d.Has e) :
    d.endsOf e = (x, y) ↔ d.ids[x]? = some e.src ∧ d.ids[y]? = some e.dst := by
  have hplace {p : NodeId} {x : Nat} (hp : ∃ n, d.node? p = some n) : d.ids.idxOf p = x ↔ d.ids[x]? = some p := by
    have hidx : d.ids[d.ids.idxOf p]? = some p := List.getElem?_idxOf ((mem_ids hd).mpr hp)
    constructor
    · rintro rfl
      exact hidx
    · exact eq_of_getElem?_ids hd hidx
  unfold endsOf
  rw [Prod.mk.injEq, hplace (hd.ends he).1, hplace (hd.ends he).2]

namespace Splits

variable (hs : base.Splits d cut) (hb : base.Sound) (hd : d.Sound)
include hs hb hd

/-- Ties come behind the nodes that were there before. -/
theorem ids_eq : d.ids = base.ids ++ List.range' base.slots.size cut.length := by
  refine (pairwise_lt_ids hd).eq_of_mem_iff ?_ fun i => ?_
  · refine List.pairwise_append.mpr ⟨pairwise_lt_ids hb, List.pairwise_lt_range', fun i hi j hj => ?_⟩
    obtain ⟨n, hn⟩ := (mem_ids hb).mp hi
    exact Nat.lt_of_lt_of_le (node?_lt hn) (List.mem_range'_1.mp hj).1
  · rw [List.mem_append, mem_ids_iff_kind? hd, mem_ids_iff_kind? hb, List.mem_range'_1]
    constructor
    · rintro ⟨kind, hk⟩
      by_cases hi : i < base.slots.size
      · exact Or.inl ⟨kind, hs.old i hi ▸ hk⟩
      · exact Or.inr ⟨Nat.le_of_not_lt hi, hs.size ▸ kind?_lt hk⟩
    · rintro (⟨kind, hk⟩ | ⟨hle, hlt⟩)
      · exact ⟨kind, (hs.old i (kind?_lt hk)).trans hk⟩
      · obtain ⟨j, rfl⟩ := Nat.exists_eq_add_of_le hle
        exact ⟨.tie, hs.tie j (Nat.lt_of_add_lt_add_left hlt)⟩

theorem getElem?_ids_of_base {p : NodeId} (hx : base.ids[x]? = some p) : d.ids[x]? = some p := by
  rw [hs.ids_eq hb hd, List.getElem?_append_left (List.getElem?_eq_some_iff.mp hx).1, hx]

/-- An older node keeps its number. -/
theorem getElem?_ids_old {p : NodeId} (hp : ∃ n, base.node? p = some n) : d.ids[x]? = some p ↔ base.ids[x]? = some p := by
  obtain ⟨y, hy⟩ := List.getElem?_of_mem ((mem_ids hb).mpr hp)
  refine ⟨fun hx => ?_, hs.getElem?_ids_of_base hb hd⟩
  rw [eq_of_getElem?_ids hd hx (hs.getElem?_ids_of_base hb hd hy), hy]

/-- The number of a tie. -/
theorem getElem?_ids_tie (hj : j < cut.length) : d.ids[x]? = some (base.slots.size + j) ↔ x = base.ids.length + j := by
  have htie : d.ids[base.ids.length + j]? = some (base.slots.size + j) := by
    rw [hs.ids_eq hb hd, List.getElem?_append_right (Nat.le_add_right _ _), Nat.add_sub_cancel_left, List.getElem?_range' hj,
      Nat.one_mul]
  constructor
  · exact fun hx => eq_of_getElem?_ids hd hx htie
  · rintro rfl
    exact htie

/-- Edges that are not split stay, and the others run over their ties. -/
theorem mem_fanout (h : d.finish contexts = .ok g) : y ∈ g.fanout x ↔ base.Joins (fun e => base.Has e ∧ e ∉ cut) x y ∨
    ∃ j e, cut[j]? = some e ∧
      (base.ids[x]? = some e.src ∧ y = base.ids.length + j ∨ x = base.ids.length + j ∧ base.ids[y]? = some e.dst) := by
  have hold {e : Edge} (he : base.Has e) : d.ids[x]? = some e.src ∧ d.ids[y]? = some e.dst ↔
      base.ids[x]? = some e.src ∧ base.ids[y]? = some e.dst := by
    rw [hs.getElem?_ids_old hb hd (hb.ends he).1, hs.getElem?_ids_old hb hd (hb.ends he).2]
  have htie {j : Nat} {e : Edge} (he : cut[j]? = some e) :
      (d.ids[x]? = some (toTie e (base.slots.size + j)).src ∧ d.ids[y]? = some (toTie e (base.slots.size + j)).dst ↔
        base.ids[x]? = some e.src ∧ y = base.ids.length + j) ∧
      (d.ids[x]? = some (fromTie e (base.slots.size + j)).src ∧ d.ids[y]? = some (fromTie e (base.slots.size + j)).dst ↔
        x = base.ids.length + j ∧ base.ids[y]? = some e.dst) := by
    obtain ⟨hhas, -⟩ := hs.joins e (List.mem_of_getElem? he)
    have hj := (List.getElem?_eq_some_iff.mp he).1
    unfold toTie fromTie
    exact ⟨and_congr (hs.getElem?_ids_old hb hd (hb.ends hhas).1) (hs.getElem?_ids_tie hb hd hj),
      and_congr (hs.getElem?_ids_tie hb hd hj) (hs.getElem?_ids_old hb hd (hb.ends hhas).2)⟩
  rw [mem_fanout_finish hd h]
  constructor
  · rintro ⟨e, he, hends⟩
    rcases hs.has.mp he with ⟨he, hcut⟩ | ⟨j, e', he', rfl | rfl⟩
    · exact Or.inl ⟨e, ⟨he, hcut⟩, (hold he).mp hends⟩
    · exact Or.inr ⟨j, e', he', Or.inl ((htie he').1.mp hends)⟩
    · exact Or.inr ⟨j, e', he', Or.inr ((htie he').2.mp hends)⟩
  · rintro (⟨e, ⟨he, hcut⟩, hends⟩ | ⟨j, e, he, hends | hends⟩)
    · exact ⟨e, hs.has.mpr (Or.inl ⟨he, hcut⟩), (hold he).mpr hends⟩
    · exact ⟨_, hs.has.mpr (Or.inr ⟨j, e, he, Or.inl rfl⟩), (htie he).1.mpr hends⟩
    · exact ⟨_, hs.has.mpr (Or.inr ⟨j, e, he, Or.inr rfl⟩), (htie he).2.mpr hends⟩

/-- The graph of a split draft has ties on the split edges. -/
theorem tied (h₀ : base.finish contexts = .ok g₀) (h : d.finish contexts' = .ok g) :
    g₀.Tied g (base.Joins fun e => base.Has e ∧ e ∉ cut) (cut.map base.endsOf) := by
  have hsize := size_finish h₀
  refine ⟨?_, fun {i} hi => ?_, fun {j} hj => ?_, fun {x y} => ?_, fun {x y} => ?_, fun {x y} hxy => ?_⟩
  · rw [hsize, size_finish h, hs.ids_eq hb hd, List.length_append, List.length_range', List.length_map]
  · have hkind : g₀.kind? i = some g₀.nodes[i].kind := by rw [Graph.kind?, Graph.node?, Array.getElem?_eq_getElem hi]; rfl
    obtain ⟨p, kind, hp, hk, hnew⟩ := (kind?_finish hb h₀).mp hkind
    have hids := hs.ids_eq hb hd
    have hnew := renumberKind_of_append (nodup_ids hb) (hids ▸ nodup_ids hd) hnew
    rw [hkind, kind?_finish hd h]
    exact ⟨p, kind, hs.getElem?_ids_of_base hb hd hp, (hs.old p (kind?_lt hk)).trans hk, hids.symm ▸ hnew⟩
  · rw [List.length_map] at hj
    rw [hsize, kind?_finish_of_routing hd h (k := .tie) rfl]
    exact ⟨_, (hs.getElem?_ids_tie hb hd hj).mpr rfl, hs.tie j hj⟩
  · rw [hs.mem_fanout hb hd h, hsize]
    refine or_congr_right (exists_congr fun j => ?_)
    simp only [List.getElem?_map, Option.map_eq_some_iff]
    constructor
    · rintro ⟨e, he, hxy⟩
      obtain ⟨hhas, -⟩ := hs.joins e (List.mem_of_getElem? he)
      obtain ⟨hsrc, hdst⟩ := (endsOf_eq_iff hb hhas).mp rfl
      refine ⟨_, _, ⟨e, he, rfl⟩, ?_⟩
      exact hxy.imp (And.imp_left (eq_of_getElem?_ids hb · hsrc)) (And.imp_right (eq_of_getElem?_ids hb · hdst))
    · rintro ⟨a, b, ⟨e, he, hends⟩, hxy⟩
      obtain ⟨hhas, -⟩ := hs.joins e (List.mem_of_getElem? he)
      obtain ⟨hsrc, hdst⟩ := (endsOf_eq_iff hb hhas).mp hends
      refine ⟨e, he, ?_⟩
      rcases hxy with ⟨rfl, hy⟩ | ⟨hx, rfl⟩
      · exact Or.inl ⟨hsrc, hy⟩
      · exact Or.inr ⟨hx, hdst⟩
  · rw [mem_fanout_finish hb h₀, List.mem_map]
    constructor
    · rintro ⟨e, he, hends⟩
      by_cases hcut : e ∈ cut
      · exact Or.inr ⟨e, hcut, (endsOf_eq_iff hb he).mpr hends⟩
      · exact Or.inl ⟨e, ⟨he, hcut⟩, hends⟩
    · rintro (⟨e, ⟨he, -⟩, hends⟩ | ⟨e, he, hends⟩)
      · exact ⟨e, he, hends⟩
      · obtain ⟨hhas, -⟩ := hs.joins e he
        exact ⟨e, hhas, (endsOf_eq_iff hb hhas).mp hends⟩
  · obtain ⟨e, he, hends⟩ := List.mem_map.mp hxy
    obtain ⟨hhas, hsrc, hdst⟩ := hs.joins e he
    obtain ⟨hx, hy⟩ := (endsOf_eq_iff hb hhas).mp hends
    rw [kind?_finish_of_routing hb h₀ (k := .mux) rfl, kind?_finish_of_routing hb h₀ (k := .mux) rfl]
    exact ⟨⟨_, hx, hsrc⟩, _, hy, hdst⟩

end Splits

end Draft
end Graph
end PlaceRoute
