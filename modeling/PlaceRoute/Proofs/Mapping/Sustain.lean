import Mathlib.Data.Finset.Basic
import Mathlib.Order.Minimal
import PlaceRoute.Proofs.Mapping.Direct

/-!
# Placements that sustain themselves

Given a walk for each operand of each host, placements of an accepted model sustain themselves if every operation is placed and
the walks to placed operations start at placed sources (`Model.Sustained`). All placements of the model do; in a least set of
them every source is used by a walk (`Model.Sustained.used`).
-/

namespace PlaceRoute
namespace Model

variable {g : Graph} {d : Design} {m : Model} {walkTo : Value → Terminal → NodeId → List NodeId}
  {placed : Finset (NodeId × OpId)} {v : Value} {w : NodeId}

/-- Every operation is placed where the model has it, and the walks to placed operations start at placed sources. -/
structure Sustained (g : Graph) (d : Design) (m : Model) (walkTo : Value → Terminal → NodeId → List NodeId)
    (placed : Finset (NodeId × OpId)) : Prop where
  hosts : ∀ {u : NodeId} {op : OpId}, (u, op) ∈ placed → u ∈ m.hosts g op
  total : ∀ op ∈ d.operations, ∃ u, (u, op.id) ∈ placed
  supplied : ∀ v ∈ d.values, ∀ t ∈ v.dsts, ∀ u, (u, t.op) ∈ placed → ((walkTo v t u).headD 0, v.src) ∈ placed

/-- The placements of the model sustain themselves. -/
theorem exists_sustained (hd : d.WellWired) (hplaced : ∀ op ∈ d.operations, ∃ u, u ∈ m.hosts g op.id)
    (hwalks : ∀ v ∈ d.values, ∀ t ∈ v.dsts, ∀ u ∈ m.hosts g t.op, m.Direct g v t u (walkTo v t u)) :
    ∃ placed, m.Sustained g d walkTo placed := by
  have hmem {u : NodeId} {op : OpId} :
      (u, op) ∈ (d.operations.flatMap fun op => (m.hosts g op.id).map fun u => (u, op.id)).toFinset ↔
        u ∈ m.hosts g op ∧ ∃ o ∈ d.operations, o.id = op := by
    simp only [List.mem_toFinset, List.mem_flatMap, List.mem_map, Prod.mk.injEq]
    constructor
    · rintro ⟨o, ho, u', hu', rfl, rfl⟩
      exact ⟨hu', o, ho, rfl⟩
    · rintro ⟨hu, o, ho, rfl⟩
      exact ⟨o, ho, u, hu, rfl, rfl⟩
  refine ⟨_, fun h => (hmem.mp h).1, fun op hop => ?_, fun v hv t ht u hu => ?_⟩
  · obtain ⟨u, hu⟩ := hplaced op hop
    exact ⟨u, hmem.mpr ⟨hu, op, hop, rfl⟩⟩
  · obtain ⟨src, hsrc, -⟩ := hd.src hv
    exact hmem.mpr ⟨(hwalks v hv t ht u (hmem.mp hu).1).host, src, List.mem_of_getElem? hsrc, hd.op_id hsrc⟩

/-- In a least set of placements that sustain themselves, a walk starts at every source: else the source could go. -/
theorem Sustained.used (hd : d.WellWired) (h : Minimal (m.Sustained g d walkTo) placed) (hv : v ∈ d.values)
    (hw : (w, v.src) ∈ placed) : ∃ t ∈ v.dsts, ∃ u, (u, t.op) ∈ placed ∧ (walkTo v t u).headD 0 = w := by
  by_contra hunused
  have hstart : ∀ t ∈ v.dsts, ∀ u, (u, t.op) ∈ placed → (walkTo v t u).headD 0 ≠ w := fun t ht u hu heq =>
    hunused ⟨t, ht, u, hu, heq⟩
  have hp := h.prop
  have hless : m.Sustained g d walkTo (placed.erase (w, v.src)) := by
    refine ⟨fun hu => hp.hosts (Finset.mem_of_mem_erase hu), fun op hop => ?_, fun v' hv' t ht u hu => ?_⟩
    · obtain ⟨u, hu⟩ := hp.total op hop
      by_cases hsrc : op.id = v.src
      · obtain ⟨t, ht⟩ := List.exists_mem_of_ne_nil _ (hd.dsts_ne_nil hv)
        obtain ⟨dst, hdst, -⟩ := hd.dst hv ht
        obtain ⟨u', hu'⟩ := hp.total dst (List.mem_of_getElem? hdst)
        rw [hd.op_id hdst] at hu'
        refine ⟨_, Finset.mem_erase.mpr ⟨fun heq => hstart t ht u' hu' (Prod.mk.inj heq).1, ?_⟩⟩
        rw [hsrc]
        exact hp.supplied v hv t ht u' hu'
      · exact ⟨u, Finset.mem_erase.mpr ⟨fun heq => hsrc (Prod.mk.inj heq).2, hu⟩⟩
    · have hmem := Finset.mem_of_mem_erase hu
      refine Finset.mem_erase.mpr ⟨fun heq => ?_, hp.supplied v' hv' t ht u hmem⟩
      obtain ⟨hhead, hsrc⟩ := Prod.mk.inj heq
      obtain rfl := hd.src_inj hv' hv hsrc
      exact hstart t ht u hmem hhead
  exact Finset.notMem_erase _ _ (h.le_of_le hless (Finset.erase_subset _ _) hw)

end Model
end PlaceRoute
