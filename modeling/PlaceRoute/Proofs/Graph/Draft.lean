import PlaceRoute.Proofs.Graph.Binding

/-!
# Drafts that are wired consistently

Adding an edge, removing one, adding a node and taking out a node without edges keep a draft sound, and each of them says which
edges the new draft has.
-/

namespace PlaceRoute
namespace Graph
namespace Draft

variable {d d' : Draft} {e x : Edge} {i : NodeId} {n : Node}

/-! ## Adding an edge -/

theorem insertPort_eq_ok {r r' : Relation String Endpoint} {port : String} {s : Endpoint}
    (h : insertPort r port s = .ok r') : r' = r.add port s := Relation.mapError_insert_eq_ok h

/-- All that adding an edge checks and does. -/
theorem wire_cases (h : d.wire e = .ok d') : e.src ≠ e.dst ∧ ∃ src dst kind,
    d.node? e.src = some src ∧ src.outputs.declares e.srcPort = true ∧
    d.node? e.dst = some dst ∧ dst.inputs.declares e.dstPort = true ∧ dst.inputs.valuesOf e.dstPort = [] ∧
    bindOperand src dst e.dstPort = .ok kind ∧
    d' = (d.setNode { dst with kind, inputs := dst.inputs.add e.dstPort ⟨e.src, e.srcPort⟩ }).setNode
      { src with outputs := src.outputs.add e.srcPort ⟨e.dst, e.dstPort⟩ } := by
  unfold wire at h
  obtain ⟨src, hsrc, h⟩ := bind_eq_ok h
  dsimp only at h
  split at h
  · cases h
  next hne =>
  split at h
  · cases h
  next hsrcPort =>
  obtain ⟨dst, hdst, h⟩ := bind_eq_ok h
  split at h
  · cases h
  next hdstPort =>
  split at h
  · cases h
  next hfree =>
  obtain ⟨kind, hkind, h⟩ := bind_eq_ok h
  obtain ⟨inputs, hinputs, h⟩ := bind_eq_ok h
  obtain ⟨outputs, houtputs, h⟩ := bind_eq_ok h
  cases h
  rw [insertPort_eq_ok hinputs, insertPort_eq_ok houtputs]
  rw [Bool.not_eq_true', Bool.not_eq_false] at hsrcPort hdstPort
  exact ⟨hne, src, dst, kind, node_eq_ok hsrc, hsrcPort, node_eq_ok hdst, hdstPort,
    List.head?_eq_none_iff.mp (Option.eq_none_iff_forall_ne_some.mpr hfree), hkind, rfl⟩

theorem size_setNode (n : Node) : (d.setNode n).slots.size = d.slots.size := Array.size_setIfInBounds

theorem size_wire (h : d.wire e = .ok d') : d'.slots.size = d.slots.size := by
  obtain ⟨-, src, dst, kind, -, -, -, -, -, -, rfl⟩ := wire_cases h
  rw [size_setNode, size_setNode]

/-- The nodes after an edge was added. -/
theorem wire_eq_ok (hd : d.Sound) (h : d.wire e = .ok d') : e.src ≠ e.dst ∧ ∃ src dst kind,
    d.node? e.src = some src ∧ d.node? e.dst = some dst ∧ bindOperand src dst e.dstPort = .ok kind ∧
    ∀ i, d'.node? i =
      if i = e.src then some { src with outputs := src.outputs.add e.srcPort ⟨e.dst, e.dstPort⟩ }
      else if i = e.dst then some { dst with kind, inputs := dst.inputs.add e.dstPort ⟨e.src, e.srcPort⟩ }
      else d.node? i := by
  obtain ⟨hne, src, dst, kind, hsrc, -, hdst, -, -, hkind, rfl⟩ := wire_cases h
  refine ⟨hne, src, dst, kind, hsrc, hdst, hkind, fun i => ?_⟩
  rw [node?_setNode, node?_setNode]
  · dsimp only
    rw [hd.id hsrc, hd.id hdst]
  · exact hd.id hdst ▸ node?_lt hdst
  · rw [size_setNode]
    exact hd.id hsrc ▸ node?_lt hsrc

/-- The edges after an edge was added. -/
theorem has_wire (hd : d.Sound) (h : d.wire e = .ok d') : d'.Has x ↔ x = e ∨ d.Has x := by
  obtain ⟨hne, src, dst, kind, hsrc, hdst, -, hnode⟩ := wire_eq_ok hd h
  unfold Has
  rw [hnode]
  split
  · next hx =>
    rw [hx, hsrc]
    simp only [Option.some.injEq, exists_eq_left']
    refine (or_iff_right ?_).symm
    rintro rfl
    exact hne hx.symm
  split
  · next hx =>
    rw [hx, hdst]
    simp only [Option.some.injEq, exists_eq_left', Relation.mem_valuesOf_add, Edge.ext_iff, hx, Endpoint.mk.injEq,
      true_and]
    exact or_congr_left ⟨fun h => ⟨h.2.1, h.2.2, h.1⟩, fun h => ⟨h.2.2, h.1, h.2.1⟩⟩
  · next hx =>
    refine (or_iff_right ?_).symm
    rintro rfl
    exact hx rfl

theorem sends_wire (hd : d.Sound) (h : d.wire e = .ok d') : d'.Sends x ↔ x = e ∨ d.Sends x := by
  obtain ⟨hne, src, dst, kind, hsrc, hdst, -, hnode⟩ := wire_eq_ok hd h
  unfold Sends
  rw [hnode]
  split
  · next hx =>
    rw [hx, hsrc]
    simp only [Option.some.injEq, exists_eq_left', Relation.mem_valuesOf_add, Edge.ext_iff, hx, Endpoint.mk.injEq,
      true_and]
  split
  · next hx =>
    rw [hx, hdst]
    simp only [Option.some.injEq, exists_eq_left']
    refine (or_iff_right ?_).symm
    rintro rfl
    exact hne hx
  · next hx _ =>
    refine (or_iff_right ?_).symm
    rintro rfl
    exact hx rfl

/-- What the driven node is after an edge was added. -/
theorem bindOperand_eq_ok {src dst : Node} {port : String} {kind : NodeKind}
    (h : bindOperand src dst port = .ok kind) :
    (∃ ops operands operand, dst.kind = .functionalUnit ops operands ∧ src.kind = .operandPort operand ∧
      operands.get? operand = none ∧ kind = .functionalUnit ops (operands.insert operand src.id)) ∨
    (∀ ops operands, dst.kind ≠ .functionalUnit ops operands) ∧ kind = dst.kind := by
  unfold bindOperand at h
  split at h
  · next ops operands hdst =>
    split at h
    · next operand hsrc =>
      split at h
      · cases h
      · next hnone =>
        exact Or.inl ⟨ops, operands, operand, hdst, hsrc, Option.not_isSome_iff_eq_none.mp hnone,
          (Except.ok.inj h).symm⟩
    · cases h
  · next hother => exact Or.inr ⟨hother, (Except.ok.inj h).symm⟩

/-- The kinds of nodes after an edge was added. -/
theorem kind?_wire (hd : d.Sound) (h : d.wire e = .ok d') : (∃ ops operands operand,
      d.kind? e.dst = some (.functionalUnit ops operands) ∧ d.kind? e.src = some (.operandPort operand) ∧
      operands.get? operand = none ∧
      ∀ i, d'.kind? i = if i = e.dst then some (.functionalUnit ops (operands.insert operand e.src)) else d.kind? i) ∨
    (∀ ops operands, d.kind? e.dst ≠ some (.functionalUnit ops operands)) ∧ ∀ i, d'.kind? i = d.kind? i := by
  obtain ⟨hne, src, dst, kind, hsrc, hdst, hbind, hnode⟩ := wire_eq_ok hd h
  have hkind (i : NodeId) : d'.kind? i = if i = e.dst then some kind else d.kind? i := by
    unfold kind?
    rw [hnode]
    by_cases hs : i = e.src
    · rw [if_pos hs, if_neg (hs ▸ hne), hs, hsrc]
      rfl
    · rw [if_neg hs]
      split <;> rfl
  rw [kind?_of_node? hdst, kind?_of_node? hsrc]
  rcases bindOperand_eq_ok hbind with ⟨ops, operands, operand, hunit, hport, hnone, rfl⟩ | ⟨hother, rfl⟩
  · exact Or.inl ⟨ops, operands, operand, by rw [hunit], by rw [hport], hnone, hd.id hsrc ▸ hkind⟩
  · refine Or.inr ⟨fun ops operands heq => hother ops operands (Option.some.inj heq), fun i => ?_⟩
    rw [hkind]
    split
    · next hi => rw [hi, kind?_of_node? hdst]
    · rfl

/-- Adding an edge keeps the nodes of a kind other than units. -/
theorem kind?_wire_of_routing {k : NodeKind} (hd : d.Sound) (h : d.wire e = .ok d')
    (hk : (k matches .functionalUnit _ _) = false) : d'.kind? i = some k ↔ d.kind? i = some k := by
  rcases kind?_wire hd h with ⟨ops, operands, operand, hunit, -, -, hkind⟩ | ⟨-, hkind⟩
  · rw [hkind]
    split
    · next hi =>
      rw [hi, hunit]
      constructor <;> (rintro ⟨rfl⟩; cases hk)
    · rfl
  · rw [hkind]

/-- Adding an edge keeps soundness: a unit refuses what is no operand port and a second port for an operand. -/
theorem Sound.wire (hd : d.Sound) (h : d.wire e = .ok d') : d'.Sound := by
  have hhas {x : Edge} : d'.Has x ↔ x = e ∨ d.Has x := has_wire hd h
  obtain ⟨hne, src, dst, kind, hsrc, hdst, -, hnode⟩ := wire_eq_ok hd h
  refine ⟨fun {i n} hn => ?_, fun {x} => by rw [hhas, sends_wire hd h, hd.sends_iff], fun {x} hx => ?_, ?_⟩
  · rw [hnode] at hn
    split at hn
    · next hi => cases hn; rw [hi]; show src.id = e.src; exact hd.id hsrc
    split at hn
    · next hi => cases hn; rw [hi]; show dst.id = e.dst; exact hd.id hdst
    · exact hd.id hn
  · rcases hhas.mp hx with rfl | hx
    · exact hne
    · exact hd.loopless hx
  · rcases kind?_wire hd h with ⟨ops, operands, operand, hunit, hport, hnone, hkind⟩ | ⟨hother, hkind⟩
    · exact hd.binds.bind hhas hkind hunit hport hnone
    · exact hd.binds.wire hhas hkind hother

/-! ## Removing an edge -/

/-- All that removing an edge checks and does. -/
theorem unwire_cases (h : d.unwire e = .ok d') : ∃ src dst, d.node? e.src = some src ∧
    (d.setNode { src with outputs := (src.outputs.remove e.srcPort ⟨e.dst, e.dstPort⟩).2 }).node? e.dst = some dst ∧
    ⟨e.src, e.srcPort⟩ ∈ dst.inputs.valuesOf e.dstPort ∧
    d' = (d.setNode { src with outputs := (src.outputs.remove e.srcPort ⟨e.dst, e.dstPort⟩).2 }).setNode { dst with
      kind := unbindOperand dst.kind e.src, inputs := (dst.inputs.remove e.dstPort ⟨e.src, e.srcPort⟩).2 } := by
  unfold unwire at h
  obtain ⟨src, hsrc, h⟩ := bind_eq_ok h
  dsimp only at h
  obtain ⟨dst, hdst, h⟩ := bind_eq_ok h
  split at h
  · cases h
  next hfound =>
  cases h
  rw [Bool.not_eq_true', Bool.not_eq_false, Bool.and_eq_true, Relation.remove_fst, Relation.remove_fst] at hfound
  exact ⟨src, dst, node_eq_ok hsrc, node_eq_ok hdst, hfound.2, rfl⟩

theorem size_unwire (h : d.unwire e = .ok d') : d'.slots.size = d.slots.size := by
  obtain ⟨src, dst, -, -, -, rfl⟩ := unwire_cases h
  rw [size_setNode, size_setNode]

/-- The nodes after an edge was removed, which was there. -/
theorem unwire_eq_ok (hd : d.Sound) (h : d.unwire e = .ok d') : d.Has e ∧ ∃ src dst,
    d.node? e.src = some src ∧ d.node? e.dst = some dst ∧
    ∀ i, d'.node? i =
      if i = e.dst then some { dst with
        kind := unbindOperand dst.kind e.src, inputs := (dst.inputs.remove e.dstPort ⟨e.src, e.srcPort⟩).2 }
      else if i = e.src then some { src with outputs := (src.outputs.remove e.srcPort ⟨e.dst, e.dstPort⟩).2 }
      else d.node? i := by
  obtain ⟨src, dst, hsrc, hdst, hin, rfl⟩ := unwire_cases h
  have hsrclt : e.src < d.slots.size := node?_lt hsrc
  rw [node?_setNode (by rw [hd.id hsrc]; exact hsrclt)] at hdst
  have hhas : d.Has e := by
    split at hdst
    · next hself =>
      cases hdst
      exact ⟨src, by rw [hself, hd.id hsrc]; exact hsrc, hin⟩
    · exact ⟨dst, hdst, hin⟩
  rw [if_neg (by rw [hd.id hsrc]; exact (hd.loopless hhas).symm)] at hdst
  refine ⟨hhas, src, dst, hsrc, hdst, fun i => ?_⟩
  rw [node?_setNode, node?_setNode]
  · dsimp only
    rw [hd.id hsrc, hd.id hdst]
  · rw [hd.id hsrc]
    exact hsrclt
  · rw [size_setNode, hd.id hdst]
    exact node?_lt hdst

/-- The edges after an edge was removed. -/
theorem has_unwire (hd : d.Sound) (h : d.unwire e = .ok d') : d'.Has x ↔ d.Has x ∧ x ≠ e := by
  obtain ⟨hhas, src, dst, hsrc, hdst, hnode⟩ := unwire_eq_ok hd h
  unfold Has
  rw [hnode]
  split
  · next hx =>
    rw [hx, hdst]
    simp only [Option.some.injEq, exists_eq_left', Relation.mem_valuesOf_remove, ne_eq, Edge.ext_iff, hx,
      Endpoint.mk.injEq, true_and]
    exact and_congr_right fun _ => not_congr ⟨fun h => ⟨h.2.1, h.2.2, h.1⟩, fun h => ⟨h.2.2, h.1, h.2.1⟩⟩
  next hx =>
  have hxe : x ≠ e := by
    rintro rfl
    exact hx rfl
  rw [and_iff_left hxe]
  split
  · next hx =>
    rw [hx, hsrc]
    simp only [Option.some.injEq, exists_eq_left']
  · rfl

theorem sends_unwire (hd : d.Sound) (h : d.unwire e = .ok d') : d'.Sends x ↔ d.Sends x ∧ x ≠ e := by
  obtain ⟨hhas, src, dst, hsrc, hdst, hnode⟩ := unwire_eq_ok hd h
  have hne := hd.loopless hhas
  unfold Sends
  rw [hnode]
  split
  · next hx =>
    have hxe : x ≠ e := by
      rintro rfl
      exact hne hx
    rw [and_iff_left hxe, hx, hdst]
    simp only [Option.some.injEq, exists_eq_left']
  split
  · next hx =>
    rw [hx, hsrc]
    simp only [Option.some.injEq, exists_eq_left', Relation.mem_valuesOf_remove, ne_eq, Edge.ext_iff, hx,
      Endpoint.mk.injEq, true_and]
  · next hx =>
    have hxe : x ≠ e := by
      rintro rfl
      exact hx rfl
    rw [and_iff_left hxe]

/-- The kinds of nodes after an edge was removed. -/
theorem kind?_unwire (hd : d.Sound) (h : d.unwire e = .ok d') :
    d'.kind? i = if i = e.dst then (d.kind? i).map (unbindOperand · e.src) else d.kind? i := by
  obtain ⟨-, src, dst, hsrc, hdst, hnode⟩ := unwire_eq_ok hd h
  unfold kind?
  rw [hnode]
  split
  · next hi =>
    rw [hi, hdst]
    rfl
  split
  · next hi =>
    rw [hi, hsrc]
    rfl
  · rfl

/-- Removing an edge keeps the nodes of a kind other than units. -/
theorem kind?_unwire_of_routing {k : NodeKind} (hd : d.Sound) (h : d.unwire e = .ok d')
    (hk : (k matches .functionalUnit _ _) = false) : d'.kind? i = some k ↔ d.kind? i = some k := by
  have hunbind {kind : NodeKind} : unbindOperand kind e.src = k ↔ kind = k := by
    cases kind with
    | functionalUnit ops operands => constructor <;> (rintro rfl; cases hk)
    | _ => rfl
  rw [kind?_unwire hd h]
  split
  · simp only [Option.map_eq_some_iff, hunbind, exists_eq_right]
  · rfl

/-- Removing an edge keeps soundness. -/
theorem Sound.unwire (hd : d.Sound) (h : d.unwire e = .ok d') : d'.Sound := by
  have hhas {x : Edge} : d'.Has x ↔ d.Has x ∧ x ≠ e := has_unwire hd h
  obtain ⟨he, src, dst, hsrc, hdst, hnode⟩ := unwire_eq_ok hd h
  refine ⟨fun {i n} hn => ?_, fun {x} => by rw [hhas, sends_unwire hd h, hd.sends_iff],
    fun {x} hx => hd.loopless (hhas.mp hx).1, hd.binds.unwire hhas (fun i => kind?_unwire hd h) he⟩
  rw [hnode] at hn
  split at hn
  · next hi => cases hn; rw [hi]; show dst.id = e.dst; exact hd.id hdst
  split at hn
  · next hi => cases hn; rw [hi]; show src.id = e.src; exact hd.id hsrc
  · exact hd.id hn

/-! ## Adding and taking out nodes -/

section
variable {name : String} {context : Nat} {kind : NodeKind} {inputs outputs : List String}

/-- The nodes after a node was added. -/
theorem node?_addNode : (d.addNode name context kind inputs outputs).2.node? i =
    if i = d.slots.size then some ⟨i, name, context, kind, .new (SortedSet.ofList inputs), .new (SortedSet.ofList outputs)⟩
    else d.node? i := by
  unfold node? addNode
  dsimp only
  rw [Array.getElem?_push]
  split
  · next hi => rw [hi, Option.join_some]
  · rfl

theorem kind?_addNode : (d.addNode name context kind inputs outputs).2.kind? i =
    if i = d.slots.size then some kind else d.kind? i := by
  unfold kind?
  rw [node?_addNode]
  split <;> rfl

/-- A new node has no edges. -/
theorem has_addNode : (d.addNode name context kind inputs outputs).2.Has x ↔ d.Has x := by
  unfold Has
  rw [node?_addNode]
  split
  · next hx =>
    rw [hx]
    simp only [Option.some.injEq, exists_eq_left', Relation.not_mem_valuesOf_new, false_iff]
    rintro ⟨n, hn, -⟩
    exact absurd (node?_lt hn) (Nat.lt_irrefl _)
  · rfl

theorem sends_addNode : (d.addNode name context kind inputs outputs).2.Sends x ↔ d.Sends x := by
  unfold Sends
  rw [node?_addNode]
  split
  · next hx =>
    rw [hx]
    simp only [Option.some.injEq, exists_eq_left', Relation.not_mem_valuesOf_new, false_iff]
    rintro ⟨n, hn, -⟩
    exact absurd (node?_lt hn) (Nat.lt_irrefl _)
  · rfl

/-- Adding a node that binds nothing keeps soundness. -/
theorem Sound.addNode (hd : d.Sound) (hempty : ∀ ops operands, kind = .functionalUnit ops operands → operands = ∅) :
    (d.addNode name context kind inputs outputs).2.Sound := by
  refine ⟨fun {i n} hn => ?_, fun {x} => by rw [has_addNode, sends_addNode, hd.sends_iff],
    fun {x} hx => hd.loopless (has_addNode.mp hx), ?_⟩
  · rw [node?_addNode] at hn
    split at hn
    · cases hn; rfl
    · exact hd.id hn
  · have hhas : (d.addNode name context kind inputs outputs).2.Has = d.Has :=
      funext fun x => propext has_addNode
    rw [hhas]
    refine hd.binds.fresh (j := d.slots.size) (fun i => kind?_addNode) (fun {x} hx => ?_) hempty
    obtain ⟨⟨m, hm⟩, n, hn⟩ := hd.ends hx
    exact ⟨Nat.ne_of_lt (node?_lt hm), Nat.ne_of_lt (node?_lt hn)⟩

end

theorem kind?_removeNode {j : NodeId} : (d.removeNode i).kind? j = if j = i then none else d.kind? j := by
  unfold kind?
  rw [node?_removeNode]
  split <;> rfl

/-- Taking out a node without edges keeps soundness. -/
theorem Sound.removeNode (hd : d.Sound) (hfree : ∀ {x : Edge}, d.Has x → x.src ≠ i ∧ x.dst ≠ i) :
    (d.removeNode i).Sound := by
  have hhas : (d.removeNode i).Has = d.Has := by
    funext x
    unfold Has
    rw [node?_removeNode]
    split
    · next hx => exact propext (iff_of_false (by simp) fun h => (hfree h).2 hx)
    · rfl
  have hsends {x : Edge} : (d.removeNode i).Sends x ↔ d.Sends x := by
    unfold Sends
    rw [node?_removeNode]
    split
    · next hx => exact iff_of_false (by simp) fun h => (hfree (hd.sends_iff.mp h)).1 hx
    · rfl
  refine ⟨fun {j n} hn => ?_, fun {x} => by rw [hhas, hsends, hd.sends_iff], fun {x} hx => hd.loopless (hhas ▸ hx), ?_⟩
  · rw [node?_removeNode] at hn
    split at hn
    · cases hn
    · exact hd.id hn
  · rw [hhas]
    exact hd.binds.drop (j := i) (fun j => kind?_removeNode) hfree

theorem sound_empty : empty.Sound := by
  have hnode {i : NodeId} {n : Node} : empty.node? i ≠ some n := nofun
  have hhas {e : Edge} : ¬ empty.Has e := fun ⟨n, hn, _⟩ => hnode hn
  exact ⟨fun h => absurd h hnode, iff_of_false (fun ⟨n, hn, _⟩ => hnode hn) hhas, fun h => absurd h hhas,
    nofun, fun _ h => absurd h hhas, fun _ h => absurd h hhas⟩

end Draft
end Graph
end PlaceRoute
