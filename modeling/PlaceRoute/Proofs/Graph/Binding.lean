import PlaceRoute.Proofs.Graph.Relation
import PlaceRoute.Graph.Build

/-!
# Units and what drives them

An edge of a draft is kept by its target (`Draft.Has`) and by its source (`Draft.Sends`). `Draft.Sound` says that both keep
the same edges and that a unit binds the operand ports that drive it (`Draft.Binds`), which is about kinds of nodes and edges
only and is kept when either changes.
-/

namespace PlaceRoute

theorem Edge.ext_iff {e x : Edge} :
    x = e ↔ x.src = e.src ∧ x.srcPort = e.srcPort ∧ x.dst = e.dst ∧ x.dstPort = e.dstPort := by
  cases x
  cases e
  exact Eq.to_iff (Edge.mk.injEq ..)

namespace Node

variable {n : Node} {m : NodeId}

theorem mem_fanin : m ∈ n.fanin ↔ ∃ port p, ⟨m, p⟩ ∈ n.inputs.valuesOf port := by
  unfold fanin
  rw [SortedSet.mem_toList, SortedSet.mem_ofList, List.mem_map]
  constructor
  · rintro ⟨⟨port, s⟩, hs, rfl⟩
    exact ⟨port, s.port, Relation.mem_pairs.mp hs⟩
  · rintro ⟨port, p, hp⟩
    exact ⟨(port, ⟨m, p⟩), Relation.mem_pairs.mpr hp, rfl⟩

theorem mem_fanout : m ∈ n.fanout ↔ ∃ port p, ⟨m, p⟩ ∈ n.outputs.valuesOf port := by
  unfold fanout
  rw [SortedSet.mem_toList, SortedSet.mem_ofList, List.mem_map]
  constructor
  · rintro ⟨⟨port, s⟩, hs, rfl⟩
    exact ⟨port, s.port, Relation.mem_pairs.mp hs⟩
  · rintro ⟨port, p, hp⟩
    exact ⟨(port, ⟨m, p⟩), Relation.mem_pairs.mpr hp, rfl⟩

theorem mem_incoming_iff {e : Edge} :
    e ∈ n.incoming ↔ e.dst = n.id ∧ ⟨e.src, e.srcPort⟩ ∈ n.inputs.valuesOf e.dstPort := by
  unfold incoming
  rw [List.mem_map]
  constructor
  · rintro ⟨⟨port, s⟩, hp, rfl⟩
    exact ⟨rfl, Relation.mem_pairs.mp hp⟩
  · rintro ⟨hdst, hv⟩
    exact ⟨(e.dstPort, ⟨e.src, e.srcPort⟩), Relation.mem_pairs.mpr hv, by rw [← hdst]⟩

theorem mem_outgoing_iff {e : Edge} :
    e ∈ n.outgoing ↔ e.src = n.id ∧ ⟨e.dst, e.dstPort⟩ ∈ n.outputs.valuesOf e.srcPort := by
  unfold outgoing
  rw [List.mem_map]
  constructor
  · rintro ⟨⟨port, s⟩, hp, rfl⟩
    exact ⟨rfl, Relation.mem_pairs.mp hp⟩
  · rintro ⟨hsrc, hv⟩
    exact ⟨(e.srcPort, ⟨e.dst, e.dstPort⟩), Relation.mem_pairs.mpr hv, by rw [← hsrc]⟩

theorem nodup_incoming (n : Node) : n.incoming.Nodup := by
  refine Relation.nodup_pairs.map ?_
  rintro ⟨port, m, p⟩ ⟨port', m', p'⟩ h
  cases h
  rfl

theorem nodup_outgoing (n : Node) : n.outgoing.Nodup := by
  refine Relation.nodup_pairs.map ?_
  rintro ⟨port, m, p⟩ ⟨port', m', p'⟩ h
  cases h
  rfl

end Node

namespace Graph
namespace Draft

variable {d d' : Draft} {e x : Edge} {i : NodeId} {n : Node}

/-! ## The edges of a draft -/

/-- An edge that its target keeps. -/
def Has (d : Draft) (e : Edge) : Prop :=
  ∃ n, d.node? e.dst = some n ∧ ⟨e.src, e.srcPort⟩ ∈ n.inputs.valuesOf e.dstPort

/-- An edge that its source keeps. -/
def Sends (d : Draft) (e : Edge) : Prop :=
  ∃ n, d.node? e.src = some n ∧ ⟨e.dst, e.dstPort⟩ ∈ n.outputs.valuesOf e.srcPort

/-- The kind of a node that is there. -/
def kind? (d : Draft) (i : NodeId) : Option NodeKind := (d.node? i).map (·.kind)

/-- A unit binds the operand ports that drive it, over one edge each, and nothing else drives it. -/
structure Binds (kind? : NodeId → Option NodeKind) (Has : Edge → Prop) : Prop where
  bound_iff : ∀ {u i p : NodeId} {ops : SortedSet String} {operands : SortedMap Nat NodeId},
    kind? u = some (.functionalUnit ops operands) →
    (operands.get? i = some p ↔ kind? p = some (.operandPort i) ∧ ∃ e, Has e ∧ e.src = p ∧ e.dst = u)
  driver : ∀ {e : Edge} {ops : SortedSet String} {operands : SortedMap Nat NodeId},
    kind? e.dst = some (.functionalUnit ops operands) → Has e → ∃ i, kind? e.src = some (.operandPort i)
  single : ∀ {e x : Edge} {ops : SortedSet String} {operands : SortedMap Nat NodeId},
    kind? e.dst = some (.functionalUnit ops operands) → Has e → Has x → x.src = e.src → x.dst = e.dst → x = e

/-- Numbers are slots, both ends of an edge keep it, and units bind their drivers. -/
structure Sound (d : Draft) : Prop where
  id : ∀ {i : NodeId} {n : Node}, d.node? i = some n → n.id = i
  sends_iff : ∀ {e : Edge}, d.Sends e ↔ d.Has e
  loopless : ∀ {e : Edge}, d.Has e → e.src ≠ e.dst
  binds : Binds d.kind? d.Has

theorem node_eq_ok (h : d.node i = .ok n) : d.node? i = some n := by
  unfold node at h
  split at h
  · next hn => rw [hn, Except.ok.inj h]
  · cases h

theorem kind?_of_node? (h : d.node? i = some n) : d.kind? i = some n.kind := by rw [kind?, h]; rfl

theorem node?_lt (h : d.node? i = some n) : i < d.slots.size := by
  unfold node? at h
  by_contra hi
  rw [Array.getElem?_eq_none (Nat.le_of_not_lt hi)] at h
  cases h

theorem node?_setNode (hi : n.id < d.slots.size) : (d.setNode n).node? i = if i = n.id then some n else d.node? i := by
  unfold node? setNode
  rw [Array.getElem?_setIfInBounds]
  by_cases h : n.id = i
  · subst h
    rw [if_pos rfl, if_pos rfl, if_pos hi, Option.join_some]
  · rw [if_neg h, if_neg (Ne.symm h)]

theorem node?_removeNode {j : NodeId} : (d.removeNode i).node? j = if j = i then none else d.node? j := by
  unfold node? removeNode
  rw [Array.getElem?_setIfInBounds]
  by_cases h : i = j
  · subst h
    rw [if_pos rfl, if_pos rfl]
    split <;> rfl
  · rw [if_neg h, if_neg (Ne.symm h)]

namespace Sound

variable (hd : d.Sound)
include hd

/-- Both ends of an edge are there. -/
theorem ends (h : d.Has e) : (∃ n, d.node? e.src = some n) ∧ ∃ n, d.node? e.dst = some n := by
  obtain ⟨m, hm, -⟩ := hd.sends_iff.mpr h
  obtain ⟨n, hn, -⟩ := h
  exact ⟨⟨m, hm⟩, n, hn⟩

theorem mem_incoming (hn : d.node? i = some n) : e ∈ n.incoming ↔ d.Has e ∧ e.dst = i := by
  rw [Node.mem_incoming_iff, hd.id hn]
  constructor
  · rintro ⟨rfl, hv⟩
    exact ⟨⟨n, hn, hv⟩, rfl⟩
  · rintro ⟨⟨m, hm, hv⟩, rfl⟩
    exact ⟨rfl, Option.some.inj (hm.symm.trans hn) ▸ hv⟩

theorem mem_outgoing (hn : d.node? i = some n) : e ∈ n.outgoing ↔ d.Has e ∧ e.src = i := by
  rw [Node.mem_outgoing_iff, hd.id hn, ← hd.sends_iff]
  constructor
  · rintro ⟨rfl, hv⟩
    exact ⟨⟨n, hn, hv⟩, rfl⟩
  · rintro ⟨⟨m, hm, hv⟩, rfl⟩
    exact ⟨rfl, Option.some.inj (hm.symm.trans hn) ▸ hv⟩

end Sound

/-! ## Units and their drivers -/

namespace Binds

variable {kind? kind?' : NodeId → Option NodeKind} {Has Has' : Edge → Prop} (hb : Binds kind? Has)
  {ops : SortedSet String} {operands : SortedMap Nat NodeId} {operand : Nat}
include hb

/-- A new edge that drives no unit. -/
theorem wire (hhas : ∀ {x : Edge}, Has' x ↔ x = e ∨ Has x) (hkind : ∀ i, kind?' i = kind? i)
    (hother : ∀ ops operands, kind? e.dst ≠ some (.functionalUnit ops operands)) : Binds kind?' Has' := by
  obtain rfl : kind?' = kind? := funext hkind
  have hold {x : Edge} {ops : SortedSet String} {operands : SortedMap Nat NodeId}
      (hx : kind?' x.dst = some (.functionalUnit ops operands)) : Has' x ↔ Has x := by
    rw [hhas]
    refine or_iff_right ?_
    rintro rfl
    exact hother _ _ hx
  refine ⟨fun hu => ?_, fun hx hhasx => hb.driver hx ((hold hx).mp hhasx), fun hx hhasx hhasy hsrc hdst =>
    hb.single hx ((hold hx).mp hhasx) ((hold (hdst ▸ hx)).mp hhasy) hsrc hdst⟩
  rw [hb.bound_iff hu]
  refine and_congr_right fun _ => exists_congr fun x => and_congr_left fun hx => ?_
  exact (hold (hx.2 ▸ hu)).symm

/-- A new edge from an operand port to a unit that has none for the operand. -/
theorem bind (hhas : ∀ {x : Edge}, Has' x ↔ x = e ∨ Has x)
    (hkind : ∀ i, kind?' i =
      if i = e.dst then some (.functionalUnit ops (operands.insert operand e.src)) else kind? i)
    (hunit : kind? e.dst = some (.functionalUnit ops operands)) (hport : kind? e.src = some (.operandPort operand))
    (hnone : operands.get? operand = none) : Binds kind?' Has' := by
  -- No edge came from a port for this operand, as it would have bound the operand.
  have hfree {x : Edge} (hx : Has x) (hxs : kind? x.src = some (.operandPort operand)) : x.dst ≠ e.dst := by
    intro hxd
    have hbound := (hb.bound_iff hunit).mpr ⟨hxs, x, hx, rfl, hxd⟩
    rw [hnone] at hbound
    cases hbound
  have hports {p i : NodeId} : kind?' p = some (.operandPort i) ↔ kind? p = some (.operandPort i) := by
    rw [hkind]
    split
    · next hp => rw [hp, hunit]; simp
    · rfl
  have hunits {u : NodeId} {ops' : SortedSet String} {operands' : SortedMap Nat NodeId}
      (hu : kind?' u = some (.functionalUnit ops' operands')) :
      ∃ operands, kind? u = some (.functionalUnit ops' operands) := by
    rw [hkind] at hu
    split at hu
    · next hue => cases hu; exact ⟨operands, hue ▸ hunit⟩
    · exact ⟨operands', hu⟩
  refine ⟨fun {u i p ops' operands'} hu => ?_, fun {x ops' operands'} hx hhasx => ?_,
    fun {x y ops' operands'} hx hhasx hhasy hsrc hdst => ?_⟩
  · rw [hports]
    by_cases hnew : u = e.dst ∧ operand = i
    · obtain ⟨rfl, rfl⟩ := hnew
      rw [hkind, if_pos rfl] at hu
      cases hu
      rw [SortedMap.get?_insert, if_pos rfl]
      constructor
      · rintro ⟨⟩
        exact ⟨hport, e, hhas.mpr (Or.inl rfl), rfl, rfl⟩
      · rintro ⟨hp, x, hx, rfl, hxu⟩
        rcases hhas.mp hx with rfl | hx
        · rfl
        · exact absurd hxu (hfree hx hp)
    · have hold : operands'.get? i = some p ↔ kind? p = some (.operandPort i) ∧ ∃ e, Has e ∧ e.src = p ∧ e.dst = u := by
        rw [hkind] at hu
        split at hu
        · next hue =>
          cases hu
          rw [SortedMap.get?_insert, if_neg fun hi => hnew ⟨hue, hi⟩]
          exact hb.bound_iff (hue ▸ hunit)
        · exact hb.bound_iff hu
      rw [hold]
      refine and_congr_right fun hp => exists_congr fun x => and_congr_left fun hx => ?_
      rw [hhas]
      refine (or_iff_right ?_).symm
      rintro rfl
      rw [← hx.1, hport] at hp
      cases hp
      exact hnew ⟨hx.2.symm, rfl⟩
  · obtain ⟨operands, hx⟩ := hunits hx
    simp only [hports]
    rcases hhas.mp hhasx with rfl | hhasx
    · exact ⟨operand, hport⟩
    · exact hb.driver hx hhasx
  · obtain ⟨operands, hx⟩ := hunits hx
    rcases hhas.mp hhasx with rfl | hhasx <;> rcases hhas.mp hhasy with rfl | hhasy
    · rfl
    · exact absurd hdst (hfree hhasy (hsrc ▸ hport))
    · exact absurd hdst.symm (hfree hhasx (hsrc ▸ hport))
    · exact hb.single hx hhasx hhasy hsrc hdst

/-- An edge is gone, and the unit that it drove binds its source no longer. -/
theorem unwire (hhas : ∀ {x : Edge}, Has' x ↔ Has x ∧ x ≠ e)
    (hkind : ∀ i, kind?' i = if i = e.dst then (kind? i).map (unbindOperand · e.src) else kind? i) (he : Has e) :
    Binds kind?' Has' := by
  have hports {p i : NodeId} : kind?' p = some (.operandPort i) ↔ kind? p = some (.operandPort i) := by
    rw [hkind]
    split
    · cases hp : kind? p with
      | none => rfl
      | some kind => cases kind <;> simp [unbindOperand]
    · rfl
  have hunits {u : NodeId} {ops : SortedSet String} {operands' : SortedMap Nat NodeId}
      (hu : kind?' u = some (.functionalUnit ops operands')) : ∃ operands,
        kind? u = some (.functionalUnit ops operands) ∧
        ∀ {i p}, operands'.get? i = some p ↔ operands.get? i = some p ∧ (u = e.dst → p ≠ e.src) := by
    rw [hkind] at hu
    split at hu
    · next hue =>
      cases hk : kind? u with
      | none => rw [hk] at hu; cases hu
      | some kind =>
        rw [hk] at hu
        cases kind with
        | functionalUnit ops operands =>
          cases hu
          refine ⟨operands, rfl, fun {i p} => ?_⟩
          rw [SortedMap.get?_filter_eq_some_iff, decide_eq_true_iff]
          exact and_congr_right fun _ => ⟨fun h _ => h, fun h => h hue⟩
        | _ => cases hu
    · next hue => exact ⟨operands', hu, fun {i p} => (and_iff_left fun h => absurd h hue).symm⟩
  refine ⟨fun {u i p ops operands'} hu => ?_, fun {x ops operands'} hx hhasx => ?_,
    fun {x y ops operands'} hx hhasx hhasy hsrc hdst => ?_⟩
  · obtain ⟨operands, hu, hget⟩ := hunits hu
    rw [hports, hget, hb.bound_iff hu, and_assoc]
    refine and_congr_right fun _ => ⟨?_, ?_⟩
    · rintro ⟨⟨x, hx, rfl, rfl⟩, hne⟩
      exact ⟨x, hhas.mpr ⟨hx, fun hxe => hne (hxe ▸ rfl) (hxe ▸ rfl)⟩, rfl, rfl⟩
    · rintro ⟨x, hx, rfl, rfl⟩
      obtain ⟨hx, hxe⟩ := hhas.mp hx
      exact ⟨⟨x, hx, rfl, rfl⟩, fun hdst hsrc => hxe (hb.single (hdst ▸ hu) he hx hsrc hdst)⟩
  · obtain ⟨operands, hx, -⟩ := hunits hx
    simp only [hports]
    exact hb.driver hx (hhas.mp hhasx).1
  · obtain ⟨operands, hx, -⟩ := hunits hx
    exact hb.single hx (hhas.mp hhasx).1 (hhas.mp hhasy).1 hsrc hdst

/-- A node is there that has no edges and binds nothing. -/
theorem fresh {j : NodeId} {kind : NodeKind} (hkind : ∀ i, kind?' i = if i = j then some kind else kind? i)
    (hj : ∀ {x : Edge}, Has x → x.src ≠ j ∧ x.dst ≠ j)
    (hempty : ∀ ops operands, kind = .functionalUnit ops operands → operands = ∅) : Binds kind?' Has := by
  have hother {i : NodeId} (hi : i ≠ j) : kind?' i = kind? i := by rw [hkind, if_neg hi]
  refine ⟨fun {u i p ops operands} hu => ?_, fun {x ops operands} hx hhasx => ?_,
    fun {x y ops operands} hx hhasx hhasy hsrc hdst => ?_⟩
  · have hp (h : ∃ e, Has e ∧ e.src = p ∧ e.dst = u) : p ≠ j ∧ u ≠ j := by
      obtain ⟨e, he, rfl, rfl⟩ := h
      exact hj he
    by_cases hu' : u = j
    · rw [hkind, if_pos hu'] at hu
      rw [hempty _ _ (Option.some.inj hu)]
      exact iff_of_false nofun fun h => (hp h.2).2 hu'
    · rw [hother hu'] at hu
      rw [hb.bound_iff hu]
      exact and_congr_left fun h => by rw [hother (hp h).1]
  · rw [hother (hj hhasx).2] at hx
    rw [hother (hj hhasx).1]
    exact hb.driver hx hhasx
  · rw [hother (hj hhasx).2] at hx
    exact hb.single hx hhasx hhasy hsrc hdst

/-- A node without edges is gone. -/
theorem drop {j : NodeId} (hkind : ∀ i, kind?' i = if i = j then none else kind? i)
    (hj : ∀ {x : Edge}, Has x → x.src ≠ j ∧ x.dst ≠ j) : Binds kind?' Has := by
  have hunit {u : NodeId} {kind : NodeKind} (hu : kind?' u = some kind) : kind? u = some kind := by
    rw [hkind] at hu
    split at hu
    · cases hu
    · exact hu
  refine ⟨fun {u i p ops operands} hu => ?_, fun {x ops operands} hx hhasx => ?_,
    fun {x y ops operands} hx hhasx hhasy hsrc hdst => hb.single (hunit hx) hhasx hhasy hsrc hdst⟩
  · rw [hb.bound_iff (hunit hu)]
    refine and_congr_left ?_
    rintro ⟨e, he, rfl, -⟩
    rw [hkind, if_neg (hj he).1]
  · rw [hkind, if_neg (hj hhasx).1]
    exact hb.driver (hunit hx) hhasx

end Binds

end Draft
end Graph
end PlaceRoute
