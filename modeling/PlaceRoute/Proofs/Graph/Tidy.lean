import PlaceRoute.Proofs.Graph.Build

/-!
# Drafts over declared ports

Edits of a draft keep that wired ports are declared and that an input port has one driver at most (`Draft.Tidy`), whatever they
are applied to. So numbering the nodes finds every port declared, and a draft that is wired consistently gives a graph
(`Draft.Sound.exists_finish`).
-/

namespace PlaceRoute

/-- Wired ports are declared, and an input port has one driver at most. -/
structure Node.Tidy (n : Node) : Prop where
  inputs : n.inputs.Covered
  outputs : n.outputs.Covered
  driver : n.inputs.Functional

namespace Graph
namespace Draft

variable {d d' : Draft} {f : Fabric} {options : GraphOptions} {e : Edge} {i r : NodeId} {n : Node}

/-! ## Declared ports and single drivers -/

/-- All nodes are tidy. -/
def Tidy (d : Draft) : Prop := ∀ i n, d.node? i = some n → n.Tidy

namespace Tidy

theorem setNode (hd : d.Tidy) (hn : n.Tidy) : (d.setNode n).Tidy := by
  intro i m hm
  unfold Draft.node? Draft.setNode at hm
  rw [Array.getElem?_setIfInBounds] at hm
  split at hm
  · split at hm
    · cases hm
      exact hn
    · cases hm
  · exact hd i m hm

theorem addNode {name : String} {context : Nat} {kind : NodeKind} {inputs outputs : List String} (hd : d.Tidy) :
    (d.addNode name context kind inputs outputs).2.Tidy := by
  intro i m hm
  rw [node?_addNode] at hm
  split at hm
  · cases hm
    exact ⟨Relation.covered_new, Relation.covered_new, Relation.functional_new⟩
  · exact hd i m hm

theorem removeNode (hd : d.Tidy) : (d.removeNode i).Tidy := by
  intro j m hm
  rw [node?_removeNode] at hm
  split at hm
  · cases hm
  · exact hd j m hm

/-- Adding an edge checks that both ports are declared and that the input port is free. -/
theorem wire (hd : d.Tidy) (h : d.wire e = .ok d') : d'.Tidy := by
  obtain ⟨-, src, dst, kind, hsrc, hsrcPort, hdst, hdstPort, hfree, -, rfl⟩ := wire_cases h
  have hsrc := hd _ _ hsrc
  have hdst := hd _ _ hdst
  have hd₁ := hd.setNode (n := { dst with kind, inputs := dst.inputs.add e.dstPort ⟨e.src, e.srcPort⟩ })
    ⟨hdst.inputs.add hdstPort, hdst.outputs, hdst.driver.add hfree⟩
  exact hd₁.setNode ⟨hsrc.inputs, hsrc.outputs.add hsrcPort, hsrc.driver⟩

theorem unwire (hd : d.Tidy) (h : d.unwire e = .ok d') : d'.Tidy := by
  obtain ⟨src, dst, hsrc, hdst, -, rfl⟩ := unwire_cases h
  have hsrc := hd _ _ hsrc
  have hd₁ := hd.setNode (n := { src with outputs := (src.outputs.remove e.srcPort ⟨e.dst, e.dstPort⟩).2 })
    ⟨hsrc.inputs, hsrc.outputs.remove, hsrc.driver⟩
  have hdst := hd₁ _ _ hdst
  exact hd₁.setNode ⟨hdst.inputs.remove, hdst.outputs, hdst.driver.remove⟩

theorem addCopy {context : Nat} {location : Location} {element : Element} (hd : d.Tidy)
    (h : Draft.addCopy context location d element = .ok d') : d'.Tidy := by
  unfold Draft.addCopy at h
  dsimp only at h
  split at h
  · cases h
  · cases h
    exact hd.addNode

theorem elideRegister (hd : d.Tidy) (h : d.elideRegister r = .ok d') : d'.Tidy := by
  unfold Draft.elideRegister at h
  obtain ⟨register, -, h⟩ := bind_eq_ok h
  dsimp only at h
  obtain ⟨d₁, h₁, h⟩ := bind_eq_ok h
  have hd₁ : d₁.Tidy := foldlM_induction Tidy hd (fun _ _ _ _ hd h => hd.unwire h) h₁
  split at h
  · cases h
    exact hd₁.removeNode
  · obtain ⟨d₂, h₂, h⟩ := bind_eq_ok h
    cases h
    have hd₂ : d₂.Tidy := foldlM_induction Tidy hd₁ (fun _ _ _ _ hd h => hd.wire h) h₂
    exact hd₂.removeNode

theorem splitWithTie (hd : d.Tidy) (h : d.splitWithTie e = .ok d') : d'.Tidy := by
  unfold Draft.splitWithTie at h
  obtain ⟨d₁, h₁, h⟩ := bind_eq_ok h
  obtain ⟨src, -, h⟩ := bind_eq_ok h
  obtain ⟨dst, -, h⟩ := bind_eq_ok h
  obtain ⟨d₂, h₂, h⟩ := bind_eq_ok h
  exact ((hd.unwire h₁).addNode.wire h₂).wire h

end Tidy

theorem tidy_empty : empty.Tidy := fun _ _ => nofun

theorem tidy_unbroken (h : unbroken f options = .ok d) : d.Tidy :=
  unbroken_induction tidy_empty Tidy.addCopy Tidy.wire Tidy.elideRegister h

/-! ## Numbering -/

/-- Nodes that are there have a number. -/
theorem Sound.exists_renumber (hd : d.Sound) (h : ∃ n, d.node? i = some n) : ∃ j, renumber d.ids i = .ok j := by
  obtain ⟨j, hj⟩ := List.getElem?_of_mem ((mem_ids hd).mpr h)
  exact ⟨j, (renumber_eq_ok_iff (nodup_ids hd)).mpr hj⟩

theorem Sound.exists_renumberEndpoint (hd : d.Sound) {s : Endpoint} (h : ∃ n, d.node? s.node = some n) :
    ∃ t, renumberEndpoint d.ids s = .ok t := by
  obtain ⟨j, hj⟩ := hd.exists_renumber h
  exact ⟨⟨j, s.port⟩, (renumberEndpoint_eq_ok_iff (nodup_ids hd)).mpr ⟨(renumber_eq_ok_iff (nodup_ids hd)).mp hj, rfl⟩⟩

/-- The ports that a unit binds have a number: an edge leads from each of them into the unit. -/
theorem Sound.exists_renumberKind (hd : d.Sound) (hn : d.node? n.id = some n) :
    ∃ kind, renumberKind d.ids n.kind = .ok kind := by
  unfold renumberKind
  split
  · next ops operands hunit =>
    have hentries : ∀ entry ∈ operands.toList, ∃ entry',
        (do return (entry.1, ← renumber d.ids entry.2) : Except BuildError (Nat × NodeId)) = .ok entry' := by
      rintro ⟨operand, port⟩ hport
      have hbound := SortedMap.get?_eq_some_iff.mpr hport
      obtain ⟨-, e, he, rfl, -⟩ := (hd.binds.bound_iff (hunit ▸ kind?_of_node? hn)).mp hbound
      obtain ⟨j, hj⟩ := hd.exists_renumber (hd.ends he).1
      exact ⟨(operand, j), by rw [hj]; rfl⟩
    obtain ⟨entries, hentries⟩ := mapM_ok hentries
    exact ⟨_, by rw [hentries]; rfl⟩
  · exact ⟨_, rfl⟩

/-- A draft that is wired consistently over declared ports gives a graph. -/
theorem Sound.exists_finish (hd : d.Sound) (htidy : d.Tidy) (contexts : Nat) : ∃ g, d.finish contexts = .ok g := by
  have hnode : ∀ n ∈ d.nodes, ∃ n', renumberNode d.ids n = .ok n' := by
    intro n hn
    have hn := (mem_nodes hd).mp hn
    obtain ⟨inputs, hinputs⟩ := (htidy _ n hn).inputs.mapValues_ok .ofRefusal (f := renumberEndpoint d.ids) fun port s hs =>
      hd.exists_renumberEndpoint (hd.ends (e := ⟨s.node, s.port, n.id, port⟩) ⟨n, hn, hs⟩).1
    obtain ⟨outputs, houtputs⟩ := (htidy _ n hn).outputs.mapValues_ok .ofRefusal (f := renumberEndpoint d.ids) fun port s hs =>
      hd.exists_renumberEndpoint (hd.ends (e := ⟨n.id, port, s.node, s.port⟩) (hd.sends_iff.mp ⟨n, hn, hs⟩)).2
    obtain ⟨kind, hkind⟩ := hd.exists_renumberKind hn
    obtain ⟨j, hj⟩ := hd.exists_renumber ⟨n, hn⟩
    exact ⟨_, by unfold renumberNode; rw [hinputs, houtputs, hkind, hj]; rfl⟩
  obtain ⟨nodes, hnodes⟩ := mapM_ok hnode
  exact ⟨_, by unfold finish; rw [hnodes]; rfl⟩

end Draft
end Graph
end PlaceRoute
