import Mathlib.Data.List.Nodup
import PlaceRoute.Proofs.Graph.Draft
import PlaceRoute.Proofs.Graph.Wiring

/-!
# Built graphs are wired consistently

Every stage of `Graph.build` keeps `Draft.Sound`, and numbering the nodes without gaps keeps the edges at both of their ends
(`Draft.receives_finish`, `Draft.sends_finish`). So every graph that is built is well wired (`wellWired_build`).
-/

namespace PlaceRoute
namespace Graph

theorem mem_fanin_iff {g : Graph} {m n : NodeId} : m ∈ g.fanin n ↔ ∃ e, g.Receives e ∧ e.src = m ∧ e.dst = n := by
  constructor
  · intro hm
    obtain ⟨node, hn⟩ := has_of_mem_fanin hm
    rw [Graph.fanin, hn, Option.map_some, Option.getD_some, Node.mem_fanin] at hm
    obtain ⟨port, p, hp⟩ := hm
    exact ⟨⟨m, p, n, port⟩, ⟨node, hn, hp⟩, rfl, rfl⟩
  · rintro ⟨e, ⟨node, hn, he⟩, rfl, rfl⟩
    rw [Graph.fanin, hn, Option.map_some, Option.getD_some, Node.mem_fanin]
    exact ⟨e.dstPort, e.srcPort, he⟩

theorem mem_fanout_iff {g : Graph} {m n : NodeId} : m ∈ g.fanout n ↔ ∃ e, g.Sends e ∧ e.src = n ∧ e.dst = m := by
  constructor
  · intro hm
    obtain ⟨node, hn⟩ := has_of_mem_fanout hm
    rw [Graph.fanout, hn, Option.map_some, Option.getD_some, Node.mem_fanout] at hm
    obtain ⟨port, p, hp⟩ := hm
    exact ⟨⟨n, port, m, p⟩, ⟨node, hn, hp⟩, rfl, rfl⟩
  · rintro ⟨e, ⟨node, hn, he⟩, rfl, rfl⟩
    rw [Graph.fanout, hn, Option.map_some, Option.getD_some, Node.mem_fanout]
    exact ⟨e.srcPort, e.dstPort, he⟩

namespace Draft

variable {d d' : Draft} {f : Fabric} {e : Edge} {r : NodeId}

/-! ## The stages -/

section
variable {P : Draft → Prop} {contexts : Nat}

/-- What adding copies keeps. -/
theorem instantiate_induction
    (hcopy : ∀ {context location element d d'}, P d → addCopy context location d element = .ok d' → P d')
    (hd : P d) (h : d.instantiate f contexts = .ok d') : P d' := by
  refine foldlM_induction P hd (fun d context d' _ hd h => ?_) h
  refine foldlM_induction P hd (fun d block d' _ hd h => ?_) h
  exact foldlM_induction P hd (fun d element d' _ hd h => hcopy hd h) h

/-- What adding edges keeps. -/
theorem wireTies_induction (hwire : ∀ {e d d'}, P d → d.wire e = .ok d' → P d') (hd : P d)
    (h : d.wireTies f contexts = .ok d') : P d' := by
  refine foldlM_induction P hd (fun d context d' _ hd h => ?_) h
  refine foldlM_induction P hd (fun d tie d' _ hd h => ?_) h
  unfold wireTie at h
  obtain ⟨src, -, h⟩ := bind_eq_ok h
  obtain ⟨n, -, h⟩ := bind_eq_ok h
  obtain ⟨dst, -, h⟩ := bind_eq_ok h
  exact hwire hd h

/-- What splitting edges keeps. -/
theorem breakCycles_induction {policy : CycleBreak} (hsplit : ∀ {e d d'}, P d → d.splitWithTie e = .ok d' → P d')
    (hd : P d) (h : d.breakCycles policy = .ok d') : P d' := by
  have hsplits {edges : List Edge} {d d' : Draft} (hd : P d) (h : edges.foldlM splitWithTie d = .ok d') : P d' :=
    foldlM_induction P hd (fun _ _ _ _ hd h => hsplit hd h) h
  have hrounds {fuel : Nat} {d : Draft} (hd : P d) (h : d.breakBackEdges fuel = .ok d') : P d' := by
    induction fuel generalizing d with
    | zero => cases h; exact hd
    | succ fuel ih =>
      unfold breakBackEdges at h
      dsimp only at h
      split at h
      · cases h
        exact hd
      · obtain ⟨d₁, h₁, h⟩ := bind_eq_ok h
        exact ih (hsplits hd h₁) h
  cases policy with
  | backEdges => exact hrounds hd h
  | allMuxEdges => exact hsplits hd h
  | none => cases h; exact hd

end

theorem Sound.addCopy {context : Nat} {location : Location} {element : Element} (hd : d.Sound)
    (h : addCopy context location d element = .ok d') : d'.Sound := by
  unfold Draft.addCopy at h
  dsimp only at h
  split at h
  · cases h
  · cases h
    have hempty (ops : SortedSet String) (operands : SortedMap Nat NodeId)
        (hk : kindOf element = .functionalUnit ops operands) : operands = ∅ := by
      cases element with
      | ofInstance i =>
        unfold kindOf at hk
        dsimp only at hk
        split at hk
        · cases hk
        · exact (NodeKind.functionalUnit.inj hk).2.symm
      | ofMux m => cases hk
      | ofOperandPort p => cases hk
    have hadd : (d.addNode (nameOf element context location) context (kindOf element) element.inputPorts
        element.outputPorts).2.Sound := hd.addNode hempty
    exact ⟨hadd.id, hadd.sends_iff, hadd.loopless, hadd.binds⟩

/-- Removing edges one after the other. -/
theorem Sound.unwires {edges : List Edge} (hd : d.Sound) (h : edges.foldlM Draft.unwire d = .ok d') :
    d'.Sound ∧ ∀ {x : Edge}, d'.Has x ↔ d.Has x ∧ x ∉ edges := by
  induction edges generalizing d with
  | nil =>
    cases h
    exact ⟨hd, fun {x} => (and_iff_left List.not_mem_nil).symm⟩
  | cons e edges ih =>
    rw [List.foldlM_cons] at h
    obtain ⟨d₁, he, h⟩ := bind_eq_ok h
    obtain ⟨hd', hhas⟩ := ih (hd.unwire he) h
    refine ⟨hd', fun {x} => ?_⟩
    rw [hhas, has_unwire hd he, and_assoc, List.mem_cons, not_or]

theorem Sound.elideRegister (hd : d.Sound) (h : d.elideRegister r = .ok d') : d'.Sound := by
  unfold Draft.elideRegister at h
  obtain ⟨register, hreg, h⟩ := bind_eq_ok h
  have hreg := node_eq_ok hreg
  dsimp only at h
  obtain ⟨d₁, hunwired, h⟩ := bind_eq_ok h
  obtain ⟨hd₁, hhas₁⟩ := hd.unwires hunwired
  have hfree₁ {x : Edge} (hx : d₁.Has x) : x.src ≠ r ∧ x.dst ≠ r := by
    obtain ⟨hx, hne⟩ := hhas₁.mp hx
    rw [List.mem_append, hd.mem_incoming hreg, hd.mem_outgoing hreg, not_or] at hne
    exact ⟨fun h => hne.2 ⟨hx, h⟩, fun h => hne.1 ⟨hx, h⟩⟩
  split at h
  · obtain ⟨d₂, hd₂, h⟩ := bind_eq_ok h
    cases hd₂
    cases h
    exact hd₁.removeNode hfree₁
  · next driver rest hin =>
    obtain ⟨d₂, hd₂, h⟩ := bind_eq_ok h
    cases h
    have hdriver : driver.src ≠ r := by
      have hmem := (hd.mem_incoming hreg).mp (hin ▸ List.mem_cons_self : driver ∈ register.incoming)
      exact fun hsrc => hd.loopless hmem.1 (hsrc.trans hmem.2.symm)
    -- The new edges join other nodes, so the register stays without edges.
    have hkept : d₂.Sound ∧ ∀ {x : Edge}, d₂.Has x → x.src ≠ r ∧ x.dst ≠ r := by
      refine foldlM_induction (fun d => d.Sound ∧ ∀ {x : Edge}, d.Has x → x.src ≠ r ∧ x.dst ≠ r)
        ⟨hd₁, hfree₁⟩ (fun s e s' he ⟨hs, hfree⟩ h => ⟨hs.wire h, fun {x} hx => ?_⟩) hd₂
      rcases (has_wire hs h).mp hx with rfl | hx
      · have hmem := (hd.mem_outgoing hreg).mp he
        exact ⟨hdriver, fun hdst => hd.loopless hmem.1 (hmem.2.trans hdst.symm)⟩
      · exact hfree hx
    exact hkept.1.removeNode hkept.2

theorem Sound.splitWithTie (hd : d.Sound) (h : d.splitWithTie e = .ok d') : d'.Sound := by
  unfold Draft.splitWithTie at h
  obtain ⟨d₁, h₁, h⟩ := bind_eq_ok h
  obtain ⟨src, -, h⟩ := bind_eq_ok h
  obtain ⟨dst, -, h⟩ := bind_eq_ok h
  obtain ⟨d₂, h₂, h⟩ := bind_eq_ok h
  have hadded : (d₁.addNode (tieName src dst e) src.context .tie [e.dstPort] [tieOutput e]).2.Sound :=
    (hd.unwire h₁).addNode nofun
  exact (hadded.wire h₂).wire h

theorem Sound.breakCycles {policy : CycleBreak} (hd : d.Sound) (h : d.breakCycles policy = .ok d') : d'.Sound :=
  breakCycles_induction Sound.splitWithTie hd h

/-! ## The numbers of the nodes that are left -/

theorem mem_nodes (hd : d.Sound) {n : Node} : n ∈ d.nodes ↔ d.node? n.id = some n := by
  unfold Draft.nodes
  rw [List.mem_filterMap]
  constructor
  · rintro ⟨s, hs, hsn⟩
    obtain rfl : s = some n := hsn
    obtain ⟨i, hi⟩ := List.getElem?_of_mem hs
    have hnode : d.node? i = some n := by rw [Draft.node?, ← Array.getElem?_toList, hi, Option.join_some]
    rwa [hd.id hnode]
  · intro hn
    unfold Draft.node? at hn
    exact ⟨some n, Array.mem_toList_iff.mpr (Array.mem_of_getElem? (Option.join_eq_some_iff.mp hn)), rfl⟩

/-- The numbers of the nodes that are left, in increasing order from a slot on. -/
theorem pairwise_ids {slots : List (Option Node)} {k : Nat}
    (hid : ∀ {j : Nat} {n : Node}, slots[j]? = some (some n) → n.id = k + j) :
    (slots.filterMap id).Pairwise (fun m n => m.id < n.id) ∧ ∀ n ∈ slots.filterMap id, k ≤ n.id := by
  induction slots generalizing k with
  | nil => exact ⟨.nil, nofun⟩
  | cons s slots ih =>
    obtain ⟨hrest, hfrom⟩ := ih (k := k + 1) fun {j n} hj => by
      rw [hid (j := j + 1) hj, Nat.add_assoc, Nat.add_comm 1]
    cases s with
    | none => exact ⟨hrest, fun n hn => Nat.le_of_succ_le (hfrom n hn)⟩
    | some m =>
      have hm : m.id = k := hid (j := 0) rfl
      rw [List.filterMap_cons_some (f := id) (b := m) rfl]
      refine ⟨List.pairwise_cons.mpr ⟨fun n hn => hm ▸ hfrom n hn, hrest⟩, fun n hn => ?_⟩
      rcases List.mem_cons.mp hn with rfl | hn
      · exact Nat.le_of_eq hm.symm
      · exact Nat.le_of_succ_le (hfrom n hn)

theorem pairwise_lt_ids (hd : d.Sound) : d.ids.Pairwise (· < ·) := by
  have hid {j : Nat} {n : Node} (hj : d.slots.toList[j]? = some (some n)) : n.id = 0 + j := by
    rw [Array.getElem?_toList] at hj
    rw [Nat.zero_add]
    exact hd.id (by rw [Draft.node?, hj, Option.join_some])
  exact List.pairwise_map.mpr (pairwise_ids hid).1

theorem nodup_ids (hd : d.Sound) : d.ids.Nodup := (pairwise_lt_ids hd).imp Nat.ne_of_lt

theorem mem_ids (hd : d.Sound) {i : NodeId} : i ∈ d.ids ↔ ∃ n, d.node? i = some n := by
  unfold ids
  rw [List.mem_map]
  constructor
  · rintro ⟨n, hn, rfl⟩
    exact ⟨n, (mem_nodes hd).mp hn⟩
  · rintro ⟨n, hn⟩
    exact ⟨n, (mem_nodes hd).mpr (hd.id hn ▸ hn), hd.id hn⟩

theorem mem_ids_iff_kind? (hd : d.Sound) {i : NodeId} : i ∈ d.ids ↔ ∃ k, d.kind? i = some k := by
  rw [mem_ids hd, kind?]
  cases d.node? i <;> simp

/-- A new number is the place of the old one. -/
theorem renumber_eq_ok_iff {left : List NodeId} (hleft : left.Nodup) {i j : NodeId} :
    renumber left i = .ok j ↔ left[j]? = some i := by
  have hidx : left.idxOf? i = some j ↔ left[j]? = some i := by
    rw [List.idxOf?_eq_some_iff]
    constructor
    · rintro ⟨hj, heq, -⟩
      rw [List.getElem?_eq_getElem hj, heq]
    · intro hj
      obtain ⟨hlt, rfl⟩ := List.getElem?_eq_some_iff.mp hj
      exact ⟨hlt, rfl, fun k hk heq => Nat.ne_of_lt hk (hleft.getElem_inj_iff.mp heq)⟩
  unfold renumber
  rw [← hidx]
  cases left.idxOf? i with
  | none => exact iff_of_false nofun nofun
  | some k => exact ⟨fun h => congrArg some (Except.ok.inj h), fun h => congrArg Except.ok (Option.some.inj h)⟩

theorem renumberEndpoint_eq_ok_iff {left : List NodeId} (hleft : left.Nodup) {s t : Endpoint} :
    renumberEndpoint left s = .ok t ↔ left[t.node]? = some s.node ∧ t.port = s.port := by
  unfold renumberEndpoint
  constructor
  · intro h
    obtain ⟨j, hj, h⟩ := bind_eq_ok h
    cases h
    exact ⟨(renumber_eq_ok_iff hleft).mp hj, rfl⟩
  · rintro ⟨hnode, hport⟩
    rw [(renumber_eq_ok_iff hleft).mpr hnode]
    obtain ⟨tn, tp⟩ := t
    cases hport
    rfl

/-- The kind of a node with new numbers: a unit binds the same ports. -/
theorem renumberKind_eq_ok {left : List NodeId} (hleft : left.Nodup) {kind kind' : NodeKind}
    (h : renumberKind left kind = .ok kind') :
    (∃ ops operands operands', kind = .functionalUnit ops operands ∧ kind' = .functionalUnit ops operands' ∧
      ∀ {i p}, operands'.get? i = some p ↔ ∃ q, operands.get? i = some q ∧ left[p]? = some q) ∨
    (∀ ops operands, kind ≠ .functionalUnit ops operands) ∧ kind' = kind := by
  unfold renumberKind at h
  split at h
  · next ops operands =>
    obtain ⟨entries, hentries, h⟩ := bind_eq_ok h
    cases h
    have hentry {i p : NodeId} : (i, p) ∈ entries ↔ ∃ q, operands.get? i = some q ∧ left[p]? = some q := by
      rw [mem_mapM hentries]
      constructor
      · rintro ⟨⟨i', q⟩, hq, h⟩
        obtain ⟨p', hp', h⟩ := bind_eq_ok h
        cases h
        exact ⟨q, SortedMap.get?_eq_some_iff.mpr hq, (renumber_eq_ok_iff hleft).mp hp'⟩
      · rintro ⟨q, hq, hp⟩
        refine ⟨(i, q), SortedMap.get?_eq_some_iff.mp hq, ?_⟩
        show renumber left q >>= (fun p => pure (i, p)) = _
        rw [(renumber_eq_ok_iff hleft).mpr hp]
        rfl
    refine Or.inl ⟨ops, operands, _, rfl, rfl, fun {i p} => ?_⟩
    rw [SortedMap.get?_eq_some_iff, SortedMap.mem_toList_ofList, hentry]
    intro i p p' hp hp'
    obtain ⟨q, hq, hp⟩ := hentry.mp hp
    obtain ⟨q', hq', hp'⟩ := hentry.mp hp'
    rw [hq] at hq'
    cases hq'
    exact Except.ok.inj (((renumber_eq_ok_iff hleft).mpr hp).symm.trans ((renumber_eq_ok_iff hleft).mpr hp'))
  · next hother => exact Or.inr ⟨hother, (Except.ok.inj h).symm⟩

/-! ## The finished graph -/

/-- The edge `x` is the edge `e` with the places of its ends. -/
def Numbers (left : List NodeId) (e x : Edge) : Prop :=
  left[x.src]? = some e.src ∧ x.srcPort = e.srcPort ∧ left[x.dst]? = some e.dst ∧ x.dstPort = e.dstPort

theorem renumberNode_eq_ok {left : List NodeId} {n n' : Node} (h : renumberNode left n = .ok n') :
    n.inputs.mapValues .ofRefusal (renumberEndpoint left) = .ok n'.inputs ∧
    n.outputs.mapValues .ofRefusal (renumberEndpoint left) = .ok n'.outputs ∧
    renumberKind left n.kind = .ok n'.kind ∧ renumber left n.id = .ok n'.id := by
  unfold renumberNode at h
  obtain ⟨inputs, hinputs, h⟩ := bind_eq_ok h
  obtain ⟨outputs, houtputs, h⟩ := bind_eq_ok h
  obtain ⟨kind, hkind, h⟩ := bind_eq_ok h
  obtain ⟨id, hid, h⟩ := bind_eq_ok h
  cases h
  exact ⟨hinputs, houtputs, hkind, hid⟩

theorem renumberNode_fixes {left : List NodeId} {n n' : Node} (h : renumberNode left n = .ok n') :
    n'.name = n.name ∧ n'.context = n.context := by
  unfold renumberNode at h
  obtain ⟨inputs, -, h⟩ := bind_eq_ok h
  obtain ⟨outputs, -, h⟩ := bind_eq_ok h
  obtain ⟨kind, -, h⟩ := bind_eq_ok h
  obtain ⟨id, -, h⟩ := bind_eq_ok h
  cases h
  exact ⟨rfl, rfl⟩

section
variable {contexts : Nat} {g : Graph} (hd : d.Sound) (h : d.finish contexts = .ok g)

include h in
theorem finish_eq_ok : ∃ nodes, d.nodes.mapM (renumberNode d.ids) = .ok nodes ∧ g.nodes = nodes.toArray ∧
    g.units = (nodes.filter (·.isUnit)).map (·.id) ∧ g.routing = (nodes.filter (!·.isUnit)).map (·.id) := by
  unfold finish at h
  obtain ⟨nodes, hnodes, h⟩ := bind_eq_ok h
  rw [List.partition_eq_filter_filter] at h
  cases h
  exact ⟨nodes, hnodes, rfl, rfl, rfl⟩

include hd h

/-- A node of the graph is a node of the draft with new numbers. -/
theorem node?_finish {j : NodeId} {n' : Node} : g.node? j = some n' ↔
    ∃ n, d.ids[j]? = some n.id ∧ d.node? n.id = some n ∧ renumberNode d.ids n = .ok n' := by
  obtain ⟨nodes, hnodes, hg, -⟩ := finish_eq_ok h
  rw [Graph.node?, hg, List.getElem?_toArray, getElem?_mapM hnodes]
  constructor
  · rintro ⟨n, hn, hn'⟩
    refine ⟨n, ?_, mem_nodes hd |>.mp (List.mem_of_getElem? hn), hn'⟩
    rw [ids, List.getElem?_map, hn]
    rfl
  · rintro ⟨n, hj, hn, hn'⟩
    refine ⟨n, ?_, hn'⟩
    rw [ids, List.getElem?_map, Option.map_eq_some_iff] at hj
    obtain ⟨m, hm, hid⟩ := hj
    have hmnode := (mem_nodes hd).mp (List.mem_of_getElem? hm)
    rw [hid, hn] at hmnode
    cases hmnode
    exact hm

theorem id_finish {j : NodeId} {n' : Node} (hj : g.node? j = some n') : n'.id = j := by
  obtain ⟨n, hj, -, hn'⟩ := (node?_finish hd h).mp hj
  have hid := (renumberNode_eq_ok hn').2.2.2
  exact Except.ok.inj (hid.symm.trans ((renumber_eq_ok_iff (nodup_ids hd)).mpr hj))

/-- Every node that is left is in the graph, at the place of its number. -/
theorem exists_finish {j : NodeId} {n : Node} (hj : d.ids[j]? = some n.id) (hn : d.node? n.id = some n) :
    ∃ n', g.node? j = some n' ∧ renumberNode d.ids n = .ok n' := by
  obtain ⟨nodes, hnodes, -⟩ := finish_eq_ok h
  obtain ⟨n', hn'⟩ := exists_of_mapM hnodes ((mem_nodes hd).mpr hn)
  exact ⟨n', (node?_finish hd h).mpr ⟨n, hj, hn, hn'⟩, hn'⟩

/-- Edges into a node are edges of the draft. -/
theorem receives_finish {x : Edge} : g.Receives x ↔ ∃ e, d.Has e ∧ Numbers d.ids e x := by
  have hends {s t : Endpoint} := renumberEndpoint_eq_ok_iff (nodup_ids hd) (s := s) (t := t)
  constructor
  · rintro ⟨n', hj, hx⟩
    obtain ⟨n, hj, hn, hn'⟩ := (node?_finish hd h).mp hj
    obtain ⟨s, hs, hsx⟩ := (Relation.mem_valuesOf_mapValues (renumberNode_eq_ok hn').1).mp hx
    obtain ⟨hsrc, hport⟩ := hends.mp hsx
    exact ⟨⟨s.node, s.port, n.id, x.dstPort⟩, ⟨n, hn, hs⟩, hsrc, hport, hj, rfl⟩
  · rintro ⟨e, ⟨n, hn, hs⟩, hsrc, hsrcPort, hdst, hdstPort⟩
    rw [← hd.id hn] at hdst hn
    obtain ⟨n', hj', hn'⟩ := exists_finish hd h hdst hn
    rw [← hdstPort] at hs
    exact ⟨n', hj', (Relation.mem_valuesOf_mapValues (renumberNode_eq_ok hn').1).mpr ⟨_, hs, hends.mpr ⟨hsrc, hsrcPort⟩⟩⟩

/-- Edges out of a node are edges of the draft. -/
theorem sends_finish {x : Edge} : g.Sends x ↔ ∃ e, d.Has e ∧ Numbers d.ids e x := by
  have hends {s t : Endpoint} := renumberEndpoint_eq_ok_iff (nodup_ids hd) (s := s) (t := t)
  constructor
  · rintro ⟨n', hj, hx⟩
    obtain ⟨n, hj, hn, hn'⟩ := (node?_finish hd h).mp hj
    obtain ⟨s, hs, hsx⟩ := (Relation.mem_valuesOf_mapValues (renumberNode_eq_ok hn').2.1).mp hx
    obtain ⟨hdst, hport⟩ := hends.mp hsx
    exact ⟨⟨n.id, x.srcPort, s.node, s.port⟩, hd.sends_iff.mp ⟨n, hn, hs⟩, hj, rfl, hdst, hport⟩
  · rintro ⟨e, he, hsrc, hsrcPort, hdst, hdstPort⟩
    obtain ⟨n, hn, hs⟩ := hd.sends_iff.mpr he
    rw [← hd.id hn] at hsrc hn
    obtain ⟨n', hj', hn'⟩ := exists_finish hd h hsrc hn
    rw [← hsrcPort] at hs
    exact ⟨n', hj', (Relation.mem_valuesOf_mapValues (renumberNode_eq_ok hn').2.1).mpr ⟨_, hs, hends.mpr ⟨hdst, hdstPort⟩⟩⟩

/-- Drivers are the drivers of the draft. -/
theorem mem_fanin_finish {j m : NodeId} :
    m ∈ g.fanin j ↔ ∃ e, d.Has e ∧ d.ids[j]? = some e.dst ∧ d.ids[m]? = some e.src := by
  rw [mem_fanin_iff]
  constructor
  · rintro ⟨x, hx, rfl, rfl⟩
    obtain ⟨e, he, hsrc, -, hdst, -⟩ := (receives_finish hd h).mp hx
    exact ⟨e, he, hdst, hsrc⟩
  · rintro ⟨e, he, hdst, hsrc⟩
    exact ⟨⟨m, e.srcPort, j, e.dstPort⟩, (receives_finish hd h).mpr ⟨e, he, hsrc, rfl, hdst, rfl⟩, rfl, rfl⟩

theorem mem_fanout_finish {j m : NodeId} :
    m ∈ g.fanout j ↔ ∃ e, d.Has e ∧ d.ids[j]? = some e.src ∧ d.ids[m]? = some e.dst := by
  rw [mem_fanout_iff]
  constructor
  · rintro ⟨x, hx, rfl, rfl⟩
    obtain ⟨e, he, hsrc, -, hdst, -⟩ := (sends_finish hd h).mp hx
    exact ⟨e, he, hsrc, hdst⟩
  · rintro ⟨e, he, hsrc, hdst⟩
    exact ⟨⟨j, e.srcPort, m, e.dstPort⟩, (sends_finish hd h).mpr ⟨e, he, hsrc, rfl, hdst, rfl⟩, rfl, rfl⟩

/-- Operand ports are the operand ports of the draft. -/
theorem operandPort_finish {p i : NodeId} : (∃ q, g.node? p = some q ∧ q.kind = .operandPort i) ↔
    ∃ p', d.ids[p]? = some p' ∧ d.kind? p' = some (.operandPort i) := by
  have hsame {n n' : Node} (hn' : renumberNode d.ids n = .ok n') :
      n'.kind = .operandPort i ↔ n.kind = .operandPort i := by
    rcases renumberKind_eq_ok (nodup_ids hd) (renumberNode_eq_ok hn').2.2.1 with
      ⟨ops, operands, operands', hk, hk', -⟩ | ⟨-, hk⟩
    · rw [hk, hk']
      exact iff_of_false nofun nofun
    · rw [hk]
  constructor
  · rintro ⟨q, hp, hk⟩
    obtain ⟨n, hp, hn, hn'⟩ := (node?_finish hd h).mp hp
    exact ⟨n.id, hp, by rw [kind?_of_node? hn, (hsame hn').mp hk]⟩
  · rintro ⟨p', hp, hk⟩
    obtain ⟨n, hn, hk⟩ := Option.map_eq_some_iff.mp hk
    rw [← hd.id hn] at hp hn
    obtain ⟨n', hp', hn'⟩ := exists_finish hd h hp hn
    exact ⟨n', hp', (hsame hn').mpr hk⟩

/-- A unit binds what it binds in the draft. -/
theorem operandPort?_finish {u i p : NodeId} {n' : Node} (hu : g.node? u = some n') (hunit : n'.isUnit = true) :
    ∃ (n : Node) (ops : SortedSet String) (operands : SortedMap Nat NodeId), d.ids[u]? = some n.id ∧
      d.kind? n.id = some (.functionalUnit ops operands) ∧
        (n'.operandPort? i = some p ↔ ∃ q, operands.get? i = some q ∧ d.ids[p]? = some q) := by
  obtain ⟨n, hu, hn, hn'⟩ := (node?_finish hd h).mp hu
  rcases renumberKind_eq_ok (nodup_ids hd) (renumberNode_eq_ok hn').2.2.1 with
    ⟨ops, operands, operands', hk, hk', hget⟩ | ⟨hother, hk⟩
  · refine ⟨n, ops, operands, hu, by rw [kind?_of_node? hn, hk], ?_⟩
    rw [Node.operandPort?, Node.operands, hk']
    exact hget
  · unfold Node.isUnit at hunit
    rw [hk] at hunit
    cases hnk : n.kind with
    | functionalUnit ops operands => exact absurd hnk (hother ops operands)
    | _ => rw [hnk] at hunit; cases hunit

theorem nodup_finish {nodes : List Node} (hg : g.nodes = nodes.toArray) : (nodes.map (·.id)).Nodup :=
  nodup_map_of_index _ fun j n hj => id_finish hd h (by rwa [Graph.node?, hg, List.getElem?_toArray])

/-- The graph of a sound draft is well wired. -/
theorem wellWired_finish : g.WellWired := by
  obtain ⟨nodes, -, hgn, hgu, hgr⟩ := finish_eq_ok h
  have hmem {n' : Node} : n' ∈ nodes ↔ g.node? n'.id = some n' := by
    have hget {j : NodeId} : nodes[j]? = g.node? j := by rw [Graph.node?, hgn, List.getElem?_toArray]
    rw [← hget]
    constructor
    · intro hn'
      obtain ⟨j, hj⟩ := List.getElem?_of_mem hn'
      rwa [id_finish hd h (hget ▸ hj : g.node? j = some n')]
    · exact List.mem_of_getElem?
  have hsplit {k : Node → Bool} {u : NodeId} : u ∈ (nodes.filter k).map (·.id) ↔
      ∃ n, g.node? u = some n ∧ k n = true := by
    simp only [List.mem_map, List.mem_filter]
    constructor
    · rintro ⟨n, ⟨hn, hk⟩, rfl⟩
      exact ⟨n, hmem.mp hn, hk⟩
    · rintro ⟨n, hn, hk⟩
      have hid := id_finish hd h hn
      exact ⟨n, ⟨hmem.mpr (hid ▸ hn), hk⟩, hid⟩
  have hnodup (k : Node → Bool) : ((nodes.filter k).map (·.id)).Nodup :=
    (List.filter_sublist.map _).nodup (nodup_finish hd h hgn)
  -- Different places hold different numbers of the draft.
  have hplace {i j k : NodeId} (hi : d.ids[i]? = some k) (hj : d.ids[j]? = some k) : i = j :=
    Except.ok.inj (((renumber_eq_ok_iff (nodup_ids hd)).mpr hi).symm.trans ((renumber_eq_ok_iff (nodup_ids hd)).mpr hj))
  refine ⟨id_finish hd h, fun {u} => hgu ▸ hsplit, fun {r} => ?_, hgu ▸ hnodup _, hgr ▸ hnodup _, fun {m n} => ?_,
    fun {u i p n'} hu hunit => ?_, fun {u p} hu hp => ?_⟩
  · rw [hgr, hsplit]
    simp only [Bool.not_eq_true']
  · rw [mem_fanin_finish hd h, mem_fanout_finish hd h]
    exact exists_congr fun e => and_congr_right fun _ => and_comm
  · obtain ⟨n, ops, operands, hu', hk, hget⟩ := operandPort?_finish (i := i) (p := p) hd h hu hunit
    rw [hget, mem_fanin_finish hd h, operandPort_finish hd h]
    constructor
    · rintro ⟨q, hq, hp⟩
      obtain ⟨hkq, e, he, rfl, hdst⟩ := (hd.binds.bound_iff hk).mp hq
      exact ⟨⟨e, he, hdst ▸ hu', hp⟩, e.src, hp, hkq⟩
    · rintro ⟨⟨e, he, hdst, hsrc⟩, q, hp, hkq⟩
      obtain rfl : e.src = q := Option.some.inj (hsrc.symm.trans hp)
      exact ⟨e.src, (hd.binds.bound_iff hk).mpr ⟨hkq, e, he, rfl, Option.some.inj (hdst.symm.trans hu')⟩, hp⟩
  · obtain ⟨n', hn', hunit⟩ := hsplit.mp (hgu ▸ hu)
    obtain ⟨n, ops, operands, hu', hk, -⟩ := operandPort?_finish (i := 0) (p := 0) hd h hn' hunit
    obtain ⟨e, he, hdst, hsrc⟩ := (mem_fanin_finish hd h).mp hp
    rw [← Option.some.inj (hdst.symm.trans hu')] at hk
    obtain ⟨i, hport⟩ := hd.binds.driver hk he
    exact ⟨i, (operandPort_finish hd h).mpr ⟨e.src, hsrc, hport⟩⟩

end

/-! ## The steps of building -/

/-- The draft before cycles are broken. -/
def unbroken (f : Fabric) (options : GraphOptions) : Except BuildError Draft := do
  let d ← instantiate f options.contexts .empty
  let d ← d.wireTies f options.contexts
  if options.contexts = 1 ∧ options.registers = .elide then d.elideRegisters else pure d

/-- The steps of building a graph. -/
theorem build_eq_ok {options : GraphOptions} {g : Graph} (h : build f options = .ok g) : ∃ base d, unbroken f options = .ok base ∧
    base.breakCycles options.cycleBreak = .ok d ∧ d.checkShortLoops = .ok () ∧ d.finish options.contexts = .ok g := by
  unfold build at h
  dsimp only at h
  split at h
  · cases h
  obtain ⟨d₁, h₁, h⟩ := bind_eq_ok h
  obtain ⟨d₂, h₂, h⟩ := bind_eq_ok h
  have hrest {base : Draft} (h : (do
      let d ← base.breakCycles options.cycleBreak
      d.checkShortLoops
      d.finish options.contexts) = .ok g) :
      ∃ d, base.breakCycles options.cycleBreak = .ok d ∧ d.checkShortLoops = .ok () ∧ d.finish options.contexts = .ok g := by
    obtain ⟨d₃, h₃, h⟩ := bind_eq_ok h
    obtain ⟨⟨⟩, hloops, h⟩ := bind_eq_ok h
    exact ⟨d₃, h₃, hloops, h⟩
  unfold unbroken
  rw [h₁, ok_bind, h₂, ok_bind]
  split at h
  · next hcond =>
    obtain ⟨base, hbase, h⟩ := bind_eq_ok h
    obtain ⟨d, hd, h⟩ := hrest h
    exact ⟨base, d, by rw [if_pos hcond, hbase], hd, h⟩
  · next hcond =>
    obtain ⟨d, hd, h⟩ := hrest h
    exact ⟨d₂, d, by rw [if_neg hcond]; rfl, hd, h⟩

/-- The draft before cycles are broken, with or without its registers. -/
theorem unbroken_eq_ok {options : GraphOptions} (h : unbroken f options = .ok d) :
    ∃ d₁ d₂, empty.instantiate f options.contexts = .ok d₁ ∧ d₁.wireTies f options.contexts = .ok d₂ ∧
      (if options.contexts = 1 ∧ options.registers = .elide then d₂.elideRegisters else pure d₂) = .ok d := by
  unfold unbroken at h
  obtain ⟨d₁, h₁, h⟩ := bind_eq_ok h
  obtain ⟨d₂, h₂, h⟩ := bind_eq_ok h
  exact ⟨d₁, d₂, h₁, h₂, h⟩

/-- What holds before cycles are broken. -/
theorem unbroken_induction {P : Draft → Prop} {options : GraphOptions} (hempty : P empty)
    (hcopy : ∀ {context location element d d'}, P d → addCopy context location d element = .ok d' → P d')
    (hwire : ∀ {e d d'}, P d → d.wire e = .ok d' → P d')
    (helide : ∀ {r d d'}, P d → d.elideRegister r = .ok d' → P d') (h : unbroken f options = .ok d) : P d := by
  obtain ⟨d₁, d₂, h₁, h₂, h⟩ := unbroken_eq_ok h
  have hd₂ := wireTies_induction hwire (instantiate_induction hcopy hempty h₁) h₂
  split at h
  · exact foldlM_induction P hd₂ (fun _ _ _ _ hd h => helide hd h) h
  · cases h
    exact hd₂

theorem sound_unbroken {options : GraphOptions} (h : unbroken f options = .ok d) : d.Sound :=
  unbroken_induction sound_empty Sound.addCopy Sound.wire Sound.elideRegister h

end Draft

/-- Every graph that is built from a fabric is well wired. -/
theorem wellWired_build {f : Fabric} {options : GraphOptions} {g : Graph} (h : build f options = .ok g) :
    g.WellWired := by
  obtain ⟨base, d, hbase, hd, -, h⟩ := Draft.build_eq_ok h
  exact Draft.wellWired_finish ((Draft.sound_unbroken hbase).breakCycles hd) h

end Graph
end PlaceRoute
