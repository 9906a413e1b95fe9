import PlaceRoute.Proofs.Fabric.Validation
import PlaceRoute.Proofs.Graph.Consistent

/-!
# Graphs as copies of a fabric

A graph that is built without breaking cycles or taking registers out holds each element once in each context and each tie once
in each context, where what leaves a register arrives one context later (`Graph.Replicates`). Drafts hold the copies in the
order in which they are made (`Draft.Holds`), each tie adds the edge between the copies that it names (`Draft.wireTie_eq`),
and as no node is taken out numbering changes nothing.
-/

namespace PlaceRoute

/-! ## What a fabric asks for -/

/-- The kind of node that an element is to become. -/
inductive Element.Becomes : Element → NodeKind → Prop where
  | unit {i : Instance} {operands : SortedMap Nat NodeId} (h : i.kind = .functionalUnit) :
    Becomes (.ofInstance i) (.functionalUnit i.ops operands)
  | register {i : Instance} (h : i.kind = .register) : Becomes (.ofInstance i) .register
  | mux {m : Mux} : Becomes (.ofMux m) .mux
  | operandPort {p : OperandPort} : Becomes (.ofOperandPort p) (.operandPort p.operand)

/-- Whether an element is a register. -/
def Element.isRegister : Element → Bool
  | .ofInstance i => i.kind = .register
  | _ => false

/-- An element at its place in a context. -/
structure Placed where
  context : Nat
  location : Location
  element : Element

/-- The names by which a placed element is found. -/
def Placed.copy (p : Placed) : Graph.Copy := ⟨p.context, p.location, p.element.name⟩

namespace Fabric

variable (f : Fabric) (contexts context : Nat)

/-- All elements with their locations. -/
def parts : List (Location × Element) := f.blocks.flatMap fun b => b.elements.map (b.location, ·)

/-- All elements in every context. -/
def copies : List Placed := (List.range contexts).flatMap fun context => f.parts.map fun p => ⟨context, p.1, p.2⟩

/-- The place of the element that an address names in a context, among all copies. -/
def number (a : Address) : NodeId := ((f.copies contexts).map (·.copy)).idxOf ⟨context, a.location, a.element⟩

/-- The context in which a tie arrives: registers deliver to the next one. -/
def arrival (tie : Tie) : Nat :=
  if (f.resolve tie.src).any (·.isRegister) then (context + 1) % contexts else context

/-- The edge of a tie in a context. -/
def edgeOf (tie : Tie) : Edge :=
  ⟨f.number contexts context tie.src, tie.src.port, f.number contexts (f.arrival contexts context tie) tie.dst, tie.dst.port⟩

/-- All ties in every context. -/
def steps : List (Nat × Tie) := (List.range contexts).flatMap fun context => f.ties.map (context, ·)

/-- The edges of all ties in every context. -/
def edges : List Edge := (List.range contexts).flatMap fun context => f.ties.map (f.edgeOf contexts context)

end Fabric

/-- A node is the copy of a placed element. -/
structure Node.IsCopy (n : Node) (p : Placed) : Prop where
  context : n.context = p.context
  name : n.name = Graph.Draft.nameOf p.element p.context p.location
  kind : p.element.Becomes n.kind
  inputs : n.inputs.keys = .ofList p.element.inputPorts
  outputs : n.outputs.keys = .ofList p.element.outputPorts

/-- The graph is made of the copies of a fabric's elements, and of the edges of its ties in every context. -/
structure Graph.Replicates (g : Graph) (f : Fabric) (contexts : Nat) : Prop where
  size : g.nodes.size = contexts * f.parts.length
  node : ∀ {i : NodeId} {p : Placed}, (f.copies contexts)[i]? = some p → ∃ n, g.node? i = some n ∧ n.IsCopy p
  distinct : ((f.copies contexts).map (·.copy)).Nodup
  /-- An address names a copy of the element that it names in the fabric. -/
  number : ∀ {context : Nat} {a : Address} {e : Element}, context < contexts → f.resolve a = some e →
    (f.copies contexts)[f.number contexts context a]? = some ⟨context, a.location, e⟩
  edges : g.edges.Perm (f.edges contexts)

variable {f : Fabric} {contexts context : Nat} {e : Element} {a : Address} {k : NodeKind} {n n' : Node} {p q : Placed} {i j : Nat}

namespace Element.Becomes

theorem kindOf (e : Element) : e.Becomes (Graph.Draft.kindOf e) := by
  cases e with
  | ofInstance i =>
    unfold Graph.Draft.kindOf
    dsimp only
    split
    · next h => exact .register h
    · next h =>
      refine .unit ?_
      cases hk : i.kind with
      | functionalUnit => rfl
      | register => exact absurd hk h
  | ofMux m => exact .mux
  | ofOperandPort p => exact .operandPort

/-- A unit may bind any operands. -/
theorem rebind {ops : SortedSet String} {operands operands' : SortedMap Nat NodeId} (h : e.Becomes (.functionalUnit ops operands)) :
    e.Becomes (.functionalUnit ops operands') := by
  cases h with
  | unit h => exact .unit h

theorem isRegister_eq (h : e.Becomes n.kind) : n.isRegister = e.isRegister := by
  unfold Node.isRegister
  generalize n.kind = k at h
  cases h with
  | unit h => simp [Element.isRegister, h]
  | register h => simp [Element.isRegister, h]
  | mux => rfl
  | operandPort => rfl

end Element.Becomes

namespace Fabric

theorem length_copies : (f.copies contexts).length = contexts * f.parts.length := by
  simp [copies, List.length_flatMap]

theorem mem_copies : p ∈ f.copies contexts ↔ p.context < contexts ∧ (p.location, p.element) ∈ f.parts := by
  unfold copies
  simp only [List.mem_flatMap, List.mem_range, List.mem_map]
  constructor
  · rintro ⟨c, hc, q, hq, rfl⟩
    exact ⟨hc, hq⟩
  · rintro ⟨hc, hp⟩
    exact ⟨p.context, hc, _, hp, rfl⟩

theorem mem_steps {p : Nat × Tie} : p ∈ f.steps contexts ↔ p.1 < contexts ∧ p.2 ∈ f.ties := by
  unfold steps
  simp only [List.mem_flatMap, List.mem_range, List.mem_map]
  constructor
  · rintro ⟨c, hc, tie, htie, rfl⟩
    exact ⟨hc, htie⟩
  · rintro ⟨hc, htie⟩
    exact ⟨p.1, hc, p.2, htie, rfl⟩

theorem map_edgeOf_steps : (f.steps contexts).map (fun p => f.edgeOf contexts p.1 p.2) = f.edges contexts := by
  simp only [steps, edges, List.map_flatMap, List.map_map]
  rfl

theorem arrival_lt {tie : Tie} (hcontext : context < contexts) : f.arrival contexts context tie < contexts := by
  unfold arrival
  split
  · exact Nat.mod_lt _ (by omega)
  · exact hcontext

/-- What an address names is one of the elements. -/
theorem mem_parts_of_resolve (h : f.resolve a = some e) : (a.location, e) ∈ f.parts ∧ e.name = a.element := by
  obtain ⟨b, hb, he⟩ := Option.bind_eq_some_iff.mp h
  have hlocation := List.find?_some hb
  have hname := List.find?_some he
  rw [decide_eq_true_iff] at hlocation hname
  refine ⟨List.mem_flatMap.mpr ⟨b, List.mem_of_find?_eq_some hb, ?_⟩, hname⟩
  rw [hlocation]
  exact List.mem_map_of_mem (List.mem_of_find?_eq_some he)

/-- An address that names an element names its copy in each context. -/
theorem getElem?_number (hf : ((f.copies contexts).map (·.copy)).Nodup) (hcontext : context < contexts)
    (ha : f.resolve a = some e) : (f.copies contexts)[f.number contexts context a]? = some ⟨context, a.location, e⟩ := by
  obtain ⟨hpart, hname⟩ := mem_parts_of_resolve ha
  obtain ⟨i, hi⟩ := List.getElem?_of_mem (mem_copies.mpr ⟨hcontext, hpart⟩ : ⟨context, a.location, e⟩ ∈ f.copies contexts)
  have hmap : ((f.copies contexts).map (·.copy))[i]? = some ⟨context, a.location, a.element⟩ := by
    rw [List.getElem?_map, hi, Option.map_some, Placed.copy, hname]
  obtain ⟨hlt, hget⟩ := List.getElem?_eq_some_iff.mp hmap
  rw [number, ← hget, hf.idxOf_getElem, hi]

end Fabric

namespace Graph
namespace Draft

variable {d d' : Draft} {done : List Placed}

/-! ## Copies of elements -/

/-- The nodes of a draft are the copies of placed elements in their order, which are found by their names. -/
structure Holds (d : Draft) (done : List Placed) : Prop where
  size : d.slots.size = done.length
  node : ∀ {i : Nat} {p : Placed}, done[i]? = some p → ∃ n, d.node? i = some n ∧ n.IsCopy p
  lookup : ∀ {c : Copy} {i : NodeId}, d.copies.lookup c = some i ↔ ∃ p, done[i]? = some p ∧ p.copy = c

namespace Holds

theorem empty : Draft.empty.Holds [] where
  size := rfl
  node := by simp
  lookup := by simp [Draft.empty]

/-- Copies have different names. -/
theorem nodup (h : d.Holds done) : (done.map (·.copy)).Nodup := by
  refine List.nodup_iff_getElem?_ne_getElem?.mpr fun i j hij hj heq => ?_
  rw [List.length_map] at hj
  rw [List.getElem?_map, List.getElem?_map, List.getElem?_eq_getElem hj, List.getElem?_eq_getElem (hij.trans hj)] at heq
  have hi := h.lookup.mpr ⟨_, List.getElem?_eq_getElem (hij.trans hj), Option.some.inj heq⟩
  have hj := h.lookup.mpr ⟨_, List.getElem?_eq_getElem hj, rfl⟩
  exact Nat.ne_of_lt hij (Option.some.inj (hi.symm.trans hj))

theorem addCopy (h : d.Holds done) (hadd : Draft.addCopy p.context p.location d p.element = .ok d') :
    d'.Holds (done ++ [p]) := by
  unfold Draft.addCopy at hadd
  dsimp only at hadd
  split at hadd
  · cases hadd
  next hnew =>
  cases hadd
  have hfree {i : NodeId} : d.copies.lookup p.copy ≠ some i := fun hi => hnew (by
    show (d.copies.lookup p.copy).isSome = true
    rw [hi, Option.isSome_some])
  refine ⟨?_, fun {i q} hq => ?_, fun {c i} => ?_⟩
  · rw [List.length_append, List.length_singleton, ← h.size]
    exact Array.size_push ..
  · show ∃ n, (d.addNode _ _ _ _ _).2.node? i = some n ∧ _
    rw [node?_addNode]
    rcases getElem?_concat_eq_some_iff.mp hq with hq | ⟨hi, rfl⟩
    · rw [if_neg (h.size ▸ Nat.ne_of_lt (List.getElem?_eq_some_iff.mp hq).1)]
      exact h.node hq
    · rw [if_pos (hi.trans h.size.symm)]
      exact ⟨_, rfl, rfl, rfl, .kindOf _, rfl, rfl⟩
  · show ((p.copy, d.slots.size) :: d.copies).lookup c = some i ↔ _
    simp only [getElem?_concat_eq_some_iff]
    by_cases hc : c = p.copy
    · subst hc
      rw [List.lookup_cons_self, h.size]
      constructor
      · rintro ⟨rfl⟩
        exact ⟨p, Or.inr ⟨rfl, rfl⟩, rfl⟩
      · rintro ⟨q, hq | ⟨rfl, -⟩, hcopy⟩
        · exact absurd (h.lookup.mpr ⟨q, hq, hcopy⟩) hfree
        · rfl
    · rw [List.lookup_cons, beq_eq_false_iff_ne.mpr hc, h.lookup]
      refine exists_congr fun q => and_congr_left fun hcopy => (or_iff_left ?_).symm
      rintro ⟨-, rfl⟩
      exact hc hcopy.symm

/-- Adding the copies of all elements in their order. -/
theorem foldlM {l : List Placed} (h : d.Holds done)
    (hadd : l.foldlM (fun d p => Draft.addCopy p.context p.location d p.element) d = .ok d') : d'.Holds (done ++ l) := by
  induction l generalizing d done with
  | nil =>
    cases hadd
    rwa [List.append_nil]
  | cons p l ih =>
    rw [List.foldlM_cons] at hadd
    obtain ⟨d₁, hp, hadd⟩ := bind_eq_ok hadd
    have hl := ih (h.addCopy hp) hadd
    rwa [List.append_assoc, List.singleton_append] at hl

/-- Adding an edge changes neither the names nor the ports of the nodes. -/
theorem wire {e : Edge} (hd : d.Sound) (h : d.Holds done) (hwire : d.wire e = .ok d') : d'.Holds done := by
  have hcopies : d'.copies = d.copies := by
    obtain ⟨-, src, dst, kind, -, -, -, -, -, -, rfl⟩ := wire_cases hwire
    rfl
  obtain ⟨-, src, dst, kind, hsrc, hdst, hbind, hnode⟩ := wire_eq_ok hd hwire
  refine ⟨(size_wire hwire).trans h.size, fun {i p} hp => ?_, by rw [hcopies]; exact h.lookup⟩
  obtain ⟨n, hn, hcopy⟩ := h.node hp
  rw [hnode]
  split
  · next hi =>
    obtain rfl : n = src := Option.some.inj (hn.symm.trans (hi ▸ hsrc))
    exact ⟨_, rfl, hcopy.context, hcopy.name, hcopy.kind, hcopy.inputs, hcopy.outputs⟩
  split
  · next hi =>
    obtain rfl : n = dst := Option.some.inj (hn.symm.trans (hi ▸ hdst))
    refine ⟨_, rfl, hcopy.context, hcopy.name, ?_, hcopy.inputs, hcopy.outputs⟩
    rcases bindOperand_eq_ok hbind with ⟨ops, operands, operand, hunit, -, -, rfl⟩ | ⟨-, rfl⟩
    · exact (hunit ▸ hcopy.kind).rebind
    · exact hcopy.kind
  · exact ⟨n, hn, hcopy⟩

/-- An address stands for the place of the copy that it names. -/
theorem resolve_eq (h : d.Holds (f.copies contexts)) (hcontext : context < contexts) (ha : f.resolve a = some e) :
    d.resolve context a = .ok (f.number contexts context a) := by
  have hcopy : (Placed.mk context a.location e).copy = ⟨context, a.location, a.element⟩ := by
    rw [Placed.copy, (Fabric.mem_parts_of_resolve ha).2]
  unfold resolve
  rw [h.lookup.mpr ⟨_, Fabric.getElem?_number h.nodup hcontext ha, hcopy⟩]

end Holds

theorem holds_instantiate (h : Draft.empty.instantiate f contexts = .ok d) : d.Holds (f.copies contexts) := by
  unfold Draft.instantiate addContext at h
  refine List.nil_append (f.copies contexts) ▸ Holds.empty.foldlM ?_
  simp only [Fabric.copies, Fabric.parts, foldlM_flatMap, List.foldlM_map]
  exact h

/-- New copies have no edges. -/
theorem not_has_instantiate (h : Draft.empty.instantiate f contexts = .ok d) (x : Edge) : ¬ d.Has x := by
  refine instantiate_induction (P := fun d => ¬ d.Has x) (fun {context location element d d'} hd hadd => ?_) ?_ h
  · unfold addCopy at hadd
    dsimp only at hadd
    split at hadd
    · cases hadd
    · cases hadd
      exact fun hx => hd (has_addNode.mp hx)
  · rintro ⟨n, hn, -⟩
    cases hn

end Draft
end Graph

namespace Graph
namespace Draft

variable {d d' : Draft} {done : List Edge}

/-! ## Edges of ties -/

/-- Wiring a tie adds the edge between the copies that it names. -/
theorem wireTie_eq {tie : Tie} (h : d.Holds (f.copies contexts)) (hcontext : context < contexts) (htie : f.Fits tie) :
    wireTie contexts context d tie = d.wire (f.edgeOf contexts context tie) := by
  obtain ⟨src, hsrc, -⟩ := htie.source
  obtain ⟨dst, hdst, -⟩ := htie.target
  obtain ⟨n, hn, hcopy⟩ := h.node (Fabric.getElem?_number h.nodup hcontext hsrc)
  have harrival : (if n.isRegister then (context + 1) % contexts else context) = f.arrival contexts context tie := by
    rw [Fabric.arrival, hsrc, Option.any_some, hcopy.kind.isRegister_eq]
  unfold wireTie
  rw [h.resolve_eq hcontext hsrc, ok_bind, node, hn, ok_bind]
  dsimp only
  rw [harrival, h.resolve_eq (Fabric.arrival_lt hcontext) hdst, ok_bind]
  rfl

/-- The edges of a draft are those of a list, in which each stands once. -/
structure Carries (d : Draft) (edges : List Edge) : Prop where
  has : ∀ {x : Edge}, d.Has x ↔ x ∈ edges
  nodup : edges.Nodup

/-- An edge that is added is new, as its input port was free. -/
theorem Carries.wire {e : Edge} (hd : d.Sound) (h : d.Carries done) (hwire : d.wire e = .ok d') : d'.Carries (done ++ [e]) := by
  have hnew : ¬ d.Has e := by
    obtain ⟨-, src, dst, kind, -, -, hdst, -, hfree, -⟩ := wire_cases hwire
    rintro ⟨n, hn, he⟩
    rw [Option.some.inj (hn.symm.trans hdst), hfree] at he
    cases he
  refine ⟨fun {x} => ?_, ?_⟩
  · rw [has_wire hd hwire, h.has, List.mem_append, List.mem_singleton, or_comm]
  · exact List.nodup_append.mpr ⟨h.nodup, List.nodup_singleton e, fun x hx y hy hxy =>
      hnew (h.has.mpr (List.mem_singleton.mp hy ▸ hxy ▸ hx))⟩

/-- Ties in contexts add their edges in their order. -/
theorem foldlM_wireTie {l : List (Nat × Tie)} (hl : ∀ p ∈ l, p.1 < contexts ∧ f.Fits p.2)
    (hd : d.Sound) (h : d.Holds (f.copies contexts)) (hc : d.Carries done)
    (hwire : l.foldlM (fun d p => wireTie contexts p.1 d p.2) d = .ok d') :
    d'.Sound ∧ d'.Holds (f.copies contexts) ∧ d'.Carries (done ++ l.map fun p => f.edgeOf contexts p.1 p.2) := by
  induction l generalizing d done with
  | nil =>
    cases hwire
    rw [List.map_nil, List.append_nil]
    exact ⟨hd, h, hc⟩
  | cons p l ih =>
    obtain ⟨⟨hcontext, htie⟩, hl⟩ := List.forall_mem_cons.mp hl
    rw [List.foldlM_cons] at hwire
    obtain ⟨d₁, hp, hwire⟩ := bind_eq_ok hwire
    rw [wireTie_eq h hcontext htie] at hp
    have hrest := ih hl (hd.wire hp) (h.wire hd hp) (hc.wire hd hp) hwire
    rw [List.append_assoc] at hrest
    exact hrest

theorem wireTies_eq_foldlM : d.wireTies f contexts = (f.steps contexts).foldlM (fun d p => wireTie contexts p.1 d p.2) d := by
  simp only [Fabric.steps, foldlM_flatMap, List.foldlM_map]
  rfl

/-- All ties add their edges in every context. -/
theorem wireTies_eq_ok (hf : f.WellFormed) (hd : d.Sound) (h : d.Holds (f.copies contexts)) (hc : d.Carries [])
    (hwire : d.wireTies f contexts = .ok d') : d'.Sound ∧ d'.Holds (f.copies contexts) ∧ d'.Carries (f.edges contexts) := by
  rw [wireTies_eq_foldlM] at hwire
  exact Fabric.map_edgeOf_steps ▸ foldlM_wireTie (fun p hp => (Fabric.mem_steps.mp hp).imp_right (hf.fits p.2)) hd h hc hwire

/-! ## Numbering when no node was taken out -/

theorem Holds.ids_eq (hd : d.Sound) {done : List Placed} (h : d.Holds done) : d.ids = List.range done.length := by
  refine (pairwise_lt_ids hd).eq_of_mem_iff List.pairwise_lt_range fun i => ?_
  rw [mem_ids hd, List.mem_range]
  constructor
  · rintro ⟨n, hn⟩
    exact h.size ▸ node?_lt hn
  · intro hi
    obtain ⟨n, hn, -⟩ := h.node (List.getElem?_eq_getElem hi)
    exact ⟨n, hn⟩

theorem getElem?_range_eq_some_iff {m i j : Nat} : (List.range m)[i]? = some j ↔ i = j ∧ j < m := by
  rw [List.getElem?_eq_some_iff]
  simp only [List.length_range, List.getElem_range]
  constructor
  · rintro ⟨hi, rfl⟩
    exact ⟨rfl, hi⟩
  · rintro ⟨rfl, hi⟩
    exact ⟨hi, rfl⟩

theorem numbers_range_iff {m : Nat} {e x : Edge} : Numbers (List.range m) e x ↔ x = e ∧ e.src < m ∧ e.dst < m := by
  unfold Numbers
  rw [getElem?_range_eq_some_iff, getElem?_range_eq_some_iff, Edge.ext_iff]
  constructor
  · rintro ⟨⟨hsrc, hs⟩, hsrcPort, ⟨hdst, ht⟩, hdstPort⟩
    exact ⟨⟨hsrc, hsrcPort, hdst, hdstPort⟩, hs, ht⟩
  · rintro ⟨⟨hsrc, hsrcPort, hdst, hdstPort⟩, hs, ht⟩
    exact ⟨⟨hsrc, hs⟩, hsrcPort, ⟨hdst, ht⟩, hdstPort⟩

theorem renumberKind_range {m : Nat} {k k' : NodeKind} (h : renumberKind (List.range m) k = .ok k') : k' = k := by
  unfold renumberKind at h
  split at h
  · next ops operands =>
    obtain ⟨entries, hentries, h⟩ := bind_eq_ok h
    cases h
    have hpure : operands.toList.mapM pure = (.ok entries : Except BuildError _) := by
      refine mapM_imp (fun entry _ entry' hentry => ?_) hentries
      obtain ⟨p, hp, hentry⟩ := bind_eq_ok hentry
      cases hentry
      rw [(getElem?_range_eq_some_iff.mp ((renumber_eq_ok_iff List.nodup_range).mp hp)).1]
      rfl
    obtain rfl : operands.toList = entries := by
      rw [List.mapM_pure] at hpure
      simpa using Except.ok.inj hpure
    rw [SortedMap.ofList_toList]
  · exact (Except.ok.inj h).symm

/-- Numbering changes the ends of edges only. -/
theorem isCopy_renumber {left : List NodeId} (hleft : left.Nodup) (h : n.IsCopy p) (hn : renumberNode left n = .ok n') :
    n'.IsCopy p := by
  obtain ⟨hinputs, houtputs, hkind, -⟩ := renumberNode_eq_ok hn
  obtain ⟨hname, hcontext⟩ := renumberNode_fixes hn
  refine ⟨hcontext.trans h.context, hname.trans h.name, ?_, (Relation.keys_mapValues hinputs).trans h.inputs,
    (Relation.keys_mapValues houtputs).trans h.outputs⟩
  rcases renumberKind_eq_ok hleft hkind with ⟨ops, operands, operands', hunit, hunit', -⟩ | ⟨-, hsame⟩
  · rw [hunit']
    exact (hunit ▸ h.kind).rebind
  · exact hsame ▸ h.kind

end Draft

/-! ## The finished graph -/

section
variable {g : Graph}

theorem WellWired.mem_edges {e : Edge} (hg : g.WellWired) : e ∈ g.edges ↔ g.Sends e := by
  unfold Graph.edges Node.outgoing
  simp only [List.mem_flatMap, List.mem_map]
  constructor
  · rintro ⟨n, hn, ⟨port, s⟩, hs, rfl⟩
    exact ⟨n, hg.node?_of_mem hn, Relation.mem_pairs.mp hs⟩
  · rintro ⟨n, hn, hs⟩
    refine ⟨n, Array.mem_toList_iff.mpr (Array.mem_of_getElem? hn), (e.srcPort, ⟨e.dst, e.dstPort⟩), Relation.mem_pairs.mpr hs, ?_⟩
    rw [hg.id hn]

theorem WellWired.nodup_edges (hg : g.WellWired) : g.edges.Nodup := by
  refine List.nodup_flatMap.mpr ⟨fun n _ => n.nodup_outgoing, ?_⟩
  refine (List.pairwise_map.mp hg.nodup_ids).imp fun {m n} hne x hxm hxn => ?_
  obtain ⟨a, -, rfl⟩ := List.mem_map.mp hxm
  obtain ⟨b, -, hb⟩ := List.mem_map.mp hxn
  exact hne (congrArg Edge.src hb).symm

theorem length_edges : g.edges.length = g.stats.edges := by
  unfold Graph.edges Graph.stats Node.outgoing
  simp only [List.length_flatMap, List.length_map, Relation.length_pairs, List.sum_eq_foldl, List.foldl_map, Array.foldl_toList]

/-- When no node was taken out the edges of the graph are those of the draft. -/
theorem Draft.mem_edges_of_finish {d : Draft} {m : Nat} {x : Edge} (hd : d.Sound) (hids : d.ids = List.range m)
    (hg : d.finish contexts = .ok g) : x ∈ g.edges ↔ d.Has x := by
  rw [(wellWired_finish hd hg).mem_edges, sends_finish hd hg, hids]
  simp only [numbers_range_iff]
  constructor
  · rintro ⟨e, he, rfl, -⟩
    exact he
  · intro hx
    obtain ⟨hsrc, hdst⟩ := hd.ends hx
    rw [← mem_ids hd, hids, List.mem_range] at hsrc hdst
    exact ⟨x, hx, rfl, hsrc, hdst⟩

/-- The graph of a draft that holds the copies of a fabric and carries the edges of its ties. -/
theorem Draft.replicates_finish {d : Draft} (hd : d.Sound) (h : d.Holds (f.copies contexts)) (hc : d.Carries (f.edges contexts))
    (hg : d.finish contexts = .ok g) : g.Replicates f contexts := by
  have hids := h.ids_eq hd
  have hwired := wellWired_finish hd hg
  refine ⟨?_, fun {i p} hp => ?_, h.nodup, fun {context a e} => Fabric.getElem?_number h.nodup, ?_⟩
  · rw [size_finish hg, hids, List.length_range, Fabric.length_copies]
  · obtain ⟨n, hn, hcopy⟩ := h.node hp
    have hi : d.ids[i]? = some n.id := by
      rw [hids, List.getElem?_range (List.getElem?_eq_some_iff.mp hp).1, hd.id hn]
    obtain ⟨n', hn', hrenumber⟩ := exists_finish hd hg hi (by rwa [hd.id hn])
    exact ⟨n', hn', isCopy_renumber (nodup_ids hd) hcopy hrenumber⟩
  · refine (List.perm_ext_iff_of_nodup hwired.nodup_edges hc.nodup).mpr fun x => ?_
    rw [mem_edges_of_finish hd hids hg, hc.has]

end

/-- A graph that is built from a valid fabric without breaking cycles, and with registers kept, is made of as many copies of the
fabric as there are contexts. -/
theorem replicates_build {options : GraphOptions} {g : Graph} (hf : f.validate = .ok ()) (hbreak : options.cycleBreak = .none)
    (hregisters : options.contexts = 1 → options.registers = .retain) (h : build f options = .ok g) :
    g.Replicates f options.contexts ∧ g.stats.edges = options.contexts * f.ties.length := by
  obtain ⟨base, d, hbase, hd, -, h⟩ := Draft.build_eq_ok h
  obtain ⟨d₁, d₂, h₁, h₂, hbase⟩ := Draft.unbroken_eq_ok hbase
  have hkept : ¬ (options.contexts = 1 ∧ options.registers = .elide) := fun ⟨hone, helide⟩ => by
    rw [hregisters hone] at helide
    cases helide
  rw [if_neg hkept] at hbase
  rw [hbreak] at hd
  cases hbase
  cases hd
  have hsound := Draft.instantiate_induction Draft.Sound.addCopy Draft.sound_empty h₁
  have hcarries : d₁.Carries [] := ⟨iff_of_false (Draft.not_has_instantiate h₁ _) List.not_mem_nil, List.nodup_nil⟩
  obtain ⟨hd, hholds, hcarries⟩ := Draft.wireTies_eq_ok (Fabric.wellFormed_of_validate hf) hsound (Draft.holds_instantiate h₁) hcarries h₂
  have hg := Draft.replicates_finish hd hholds hcarries h
  refine ⟨hg, ?_⟩
  rw [← length_edges, hg.edges.length_eq]
  simp [Fabric.edges, List.length_flatMap]

/-- Two contexts of a line with a register: what the register gets in one arrives in the other. -/
theorem delayed_replicates : ∃ g : Graph, Fabric.delayed.validate = .ok () ∧
    build .delayed { contexts := 2, cycleBreak := .none } = .ok g ∧ g.Replicates .delayed 2 ∧ g.stats.edges = 6 := by
  obtain ⟨g, hg⟩ : ∃ g : Graph, build .delayed { contexts := 2, cycleBreak := .none } = .ok g := ⟨_, rfl⟩
  exact ⟨g, rfl, hg, replicates_build rfl rfl (by decide) hg⟩

end Graph
end PlaceRoute
