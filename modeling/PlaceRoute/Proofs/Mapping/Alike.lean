import PlaceRoute.Proofs.Graph.Ties
import PlaceRoute.Proofs.Mapping.Legal

/-!
# Graphs with the same units

Which operations stand where and what starts and ends there is asked of units and their ports only. Graphs that have the same of
these, with the same decisions on them, satisfy these families alike (`Alike.holds`).
-/

namespace PlaceRoute

theorem Node.operandPort?_of_kind {n n' : Node} (h : n.kind = n'.kind) (i : Nat) : n'.operandPort? i = n.operandPort? i := by
  unfold Node.operandPort? Node.operands
  rw [h]

/-- Two graphs have the same units, these are among the first `size` nodes with their ports, and the decisions about these nodes
are the same. -/
structure Alike (g g' : Graph) (δ δ' : Key → Bool) (size : Nat) : Prop where
  units : g.units.Perm g'.units
  kind : ∀ i < size, g'.kind? i = g.kind? i
  units_lt : ∀ u ∈ g.units, u < size
  ports_lt : ∀ u ∈ g.units, ∀ n, g.node? u = some n → ∀ i p, n.operandPort? i = some p → p < size
  same : ∀ k : Key, k.node < size → δ' k = δ k

namespace Alike

variable {g g' : Graph} {d : Design} {δ δ' : Key → Bool} {size : Nat} (h : Alike g g' δ δ' size) {u : NodeId}
include h

theorem place (hu : u ∈ g.units) (op : OpId) : δ' (.place u op) = δ (.place u op) := h.same _ (h.units_lt u hu)

theorem route (hu : u ∈ g.units) (v : ValueId) : δ' (.route u v) = δ (.route u v) := h.same _ (h.units_lt u hu)

theorem routeTo (hu : u ∈ g.units) (v : ValueId) (t : Terminal) : δ' (.routeTo u v t) = δ (.routeTo u v t) :=
  h.same _ (h.units_lt u hu)

theorem node (hu : u ∈ g.units) {n' : Node} (hn' : g'.node? u = some n') : ∃ n, g.node? u = some n ∧ n.kind = n'.kind :=
  Graph.exists_node_of_kind?_eq (h.kind u (h.units_lt u hu)).symm hn'

theorem supports (hu : u ∈ g.units) (op : Operation) : Family.supports g' u op = Family.supports g u op := by
  have hkind := h.kind u (h.units_lt u hu)
  unfold Graph.kind? at hkind
  unfold Family.supports Node.supports Node.ops?
  cases hn : g.node? u with
  | none =>
    rw [hn] at hkind
    rw [Option.map_eq_none_iff.mp hkind]
  | some n =>
    rw [hn] at hkind
    obtain ⟨n', hn', hk⟩ := Option.map_eq_some_iff.mp hkind
    rw [hn', Option.any_some, Option.any_some, hk]

theorem symm : Alike g' g δ' δ size where
  units := h.units.symm
  kind i hi := (h.kind i hi).symm
  units_lt u hu := h.units_lt u (h.units.mem_iff.mpr hu)
  ports_lt u hu n' hn' i p hp := by
    have hu := h.units.mem_iff.mpr hu
    obtain ⟨n, hn, hk⟩ := h.node hu hn'
    exact h.ports_lt u hu n hn i p (Node.operandPort?_of_kind hk i ▸ hp)
  same k hk := (h.same k hk).symm

/-! ## The families -/

theorem opsPlaced (hall : Family.OpsPlaced g d δ) : Family.OpsPlaced g' d δ' := by
  intro op hop
  have hplaced := hall op hop
  split
  · next hdup =>
    rw [if_pos hdup] at hplaced
    obtain ⟨u, hu, hplace⟩ := hplaced
    exact ⟨u, h.units.mem_iff.mp hu, (h.place hu op.id).trans hplace⟩
  · next hdup =>
    rw [if_neg hdup] at hplaced
    rw [← h.units.countP_eq, ← hplaced]
    exact List.countP_congr fun u hu => by rw [h.place hu]

theorem unitsExclusive (hall : Family.UnitsExclusive g d δ) : Family.UnitsExclusive g' d δ' := by
  intro u hu
  have hu := h.units.mem_iff.mpr hu
  simp only [h.place hu]
  exact hall u hu

theorem placementsSupported (hall : Family.PlacementsSupported g d δ) : Family.PlacementsSupported g' d δ' := by
  intro u hu op hop
  have hu := h.units.mem_iff.mpr hu
  rw [h.supports hu, h.place hu]
  exact hall u hu op hop

theorem netsStartAtSources (hall : Family.NetsStartAtSources g d δ) : Family.NetsStartAtSources g' d δ' := by
  intro u hu v hv src hsrc
  have hu := h.units.mem_iff.mpr hu
  simp only [h.supports hu, h.place hu, h.route hu, h.routeTo hu]
  exact hall u hu v hv src hsrc

theorem flowsEndAtPorts (hall : Family.FlowsEndAtPorts g d δ) : Family.FlowsEndAtPorts g' d δ' := by
  rw [Family.flowsEndAtPorts_iff] at hall ⊢
  intro u hu n' hn' v t hflow dst hdst
  have hu := h.units.mem_iff.mpr hu
  obtain ⟨n, hn, hk⟩ := h.node hu hn'
  have hport := Node.operandPort?_of_kind hk
  have hflows {i p : Nat} (hp : n.operandPort? i = some p) : δ' (.routeTo p v.id t) = δ (.routeTo p v.id t) :=
    h.same _ (h.ports_lt u hu n hn i p hp)
  obtain ⟨hother, hown, hnone⟩ := hall u hu n hn v t hflow dst hdst
  rw [hport]
  refine ⟨fun i p hp hi => ?_, fun p hp => ?_, fun hnp hsup => ?_⟩
  · rw [hport] at hp
    rw [hflows hp]
    exact hother i p hp hi
  · rw [hflows hp, h.supports hu, h.place hu]
    exact hown p hp
  · rw [h.supports hu] at hsup
    rw [h.place hu]
    exact hnone hnp hsup

/-- The families that speak of placements and of the ends of flows. -/
theorem holds {f : Family} (hf : f ∈ [Family.opPlacement, .peExclusivity, .peLegality, .initValue, .portPlacement])
    (hall : f.Holds g d δ) : f.Holds g' d δ' := by
  simp only [List.mem_cons, List.not_mem_nil, or_false] at hf
  rcases hf with rfl | rfl | rfl | rfl | rfl
  · exact h.opsPlaced hall
  · exact h.unitsExclusive hall
  · exact h.placementsSupported hall
  · exact h.netsStartAtSources hall
  · exact h.flowsEndAtPorts hall

end Alike

/-- Ties change neither units nor ports. -/
theorem Graph.Tied.alike {g₀ g : Graph} {whole : NodeId → NodeId → Prop} {ends : List (NodeId × NodeId)}
    (h : g₀.Tied g whole ends) (hg₀ : g₀.WellWired) (hg : g.WellWired) {δ₀ δ : Key → Bool}
    (hsame : ∀ k : Key, k.node < g₀.nodes.size → δ k = δ₀ k) : Alike g₀ g δ₀ δ g₀.nodes.size where
  units := (h.units_perm hg₀ hg).symm
  kind _ hi := h.kind hi
  units_lt _ hu := has_iff_lt.mp (hg₀.has_of_unit hu)
  ports_lt u hu n hn i p hp := by
    obtain ⟨n', hn', hunit⟩ := hg₀.units.mp hu
    obtain rfl := Option.some.inj (hn.symm.trans hn')
    exact (hg₀.lt_of_fanout (hg₀.fanin_iff_fanout.mp ((hg₀.bound_iff hn hunit).mp hp).1)).1
  same := hsame

end PlaceRoute
