import PlaceRoute.Proofs.Graph.Consistent

/-!
# Edits that succeed

When each edit of a draft succeeds. Ports are declared once and for all (`Draft.shell?_wire`, `Draft.shell?_unwire`), so the ends
of an edge may be wired again after it was removed. An edge may be added between declared ports when the input is free and its
node takes the source (`Draft.failsOnly_wire`), where the only failure left is that both ends are one node. Putting a tie on an
edge to a mux cannot fail (`Draft.exists_splitWithTie`), and taking a register out fails at most because the register's driver
is one of its consumers (`Draft.failsOnly_elideRegister`).
-/

namespace PlaceRoute

/-- What edits keep of a node: its number, name and context, and the ports that it declares. -/
structure Node.Shell where
  id : NodeId
  name : String
  context : Nat
  inputs : SortedSet String
  outputs : SortedSet String

/-- A node without its kind and wiring. -/
def Node.shell (n : Node) : Node.Shell := ⟨n.id, n.name, n.context, n.inputs.keys, n.outputs.keys⟩

namespace Graph

/-- The failures that are about an edge, or two, from a node to itself. -/
inductive BuildError.IsLoop : BuildError → Prop where
  | selfEdge {node srcPort dstPort : String} : IsLoop (.selfEdge node srcPort dstPort)
  | selfLoop {node : String} : IsLoop (.selfLoop node)
  | twoHopLoop {node via : String} : IsLoop (.twoHopLoop node via)

namespace Draft

variable {d d' : Draft} {e x : Edge} {i r : NodeId} {n : Node} {port : String}

/-! ## What edits keep of a node -/

/-- The node with a number, without its kind and wiring. -/
def shell? (d : Draft) (i : NodeId) : Option Node.Shell := (d.node? i).map Node.shell

theorem shell?_of_node? (h : d.node? i = some n) : d.shell? i = some n.shell := by rw [shell?, h]; rfl

theorem shell?_wire (hd : d.Sound) (h : d.wire e = .ok d') : d'.shell? i = d.shell? i := by
  obtain ⟨-, src, dst, kind, hsrc, hdst, -, hnode⟩ := wire_eq_ok hd h
  unfold shell?
  rw [hnode]
  split
  · next hi =>
    rw [hi, hsrc]
    rfl
  split
  · next hi =>
    rw [hi, hdst]
    rfl
  · rfl

theorem shell?_unwire (hd : d.Sound) (h : d.unwire e = .ok d') : d'.shell? i = d.shell? i := by
  obtain ⟨-, src, dst, hsrc, hdst, hnode⟩ := unwire_eq_ok hd h
  unfold shell?
  rw [hnode]
  split
  · next hi =>
    rw [hi, hdst, Option.map_some, Option.map_some]
    simp only [Node.shell, Relation.keys_remove]
  split
  · next hi =>
    rw [hi, hsrc, Option.map_some, Option.map_some]
    simp only [Node.shell, Relation.keys_remove]
  · rfl

theorem shell?_addNode {name : String} {context : Nat} {kind : NodeKind} {inputs outputs : List String} :
    (d.addNode name context kind inputs outputs).2.shell? i =
      if i = d.slots.size then some ⟨i, name, context, SortedSet.ofList inputs, SortedSet.ofList outputs⟩ else d.shell? i := by
  unfold shell?
  rw [node?_addNode]
  split <;> rfl

/-- A node is there that declares an input port. -/
def HasInput (d : Draft) (i : NodeId) (port : String) : Prop := ∃ s, d.shell? i = some s ∧ port ∈ s.inputs

/-- A node is there that declares an output port. -/
def HasOutput (d : Draft) (i : NodeId) (port : String) : Prop := ∃ s, d.shell? i = some s ∧ port ∈ s.outputs

theorem hasInput_iff : d.HasInput i port ↔ ∃ n, d.node? i = some n ∧ n.inputs.declares port = true := by
  simp only [HasInput, shell?, Option.map_eq_some_iff, exists_exists_and_eq_and, Node.shell, Relation.declares, decide_eq_true_iff]

theorem hasOutput_iff : d.HasOutput i port ↔ ∃ n, d.node? i = some n ∧ n.outputs.declares port = true := by
  simp only [HasOutput, shell?, Option.map_eq_some_iff, exists_exists_and_eq_and, Node.shell, Relation.declares, decide_eq_true_iff]

theorem HasInput.congr (h : d.HasInput i port) (hshell : d'.shell? i = d.shell? i) : d'.HasInput i port := by
  rwa [HasInput, hshell]

theorem HasOutput.congr (h : d.HasOutput i port) (hshell : d'.shell? i = d.shell? i) : d'.HasOutput i port := by
  rwa [HasOutput, hshell]

/-- The ports of an edge are declared. -/
theorem Tidy.ports (htidy : d.Tidy) (hd : d.Sound) (he : d.Has e) : d.HasOutput e.src e.srcPort ∧ d.HasInput e.dst e.dstPort := by
  obtain ⟨src, hsrc, hout⟩ := hd.sends_iff.mpr he
  obtain ⟨dst, hdst, hin⟩ := he
  exact ⟨hasOutput_iff.mpr ⟨src, hsrc, (htidy _ _ hsrc).outputs _ _ hout⟩, hasInput_iff.mpr ⟨dst, hdst, (htidy _ _ hdst).inputs _ _ hin⟩⟩

/-- An input port has one driver at most. -/
theorem Tidy.eq_of_dst (htidy : d.Tidy) (he : d.Has e) (hx : d.Has x) (hdst : x.dst = e.dst) (hport : x.dstPort = e.dstPort) :
    x = e := by
  obtain ⟨n, hn, hin⟩ := he
  obtain ⟨m, hm, hin'⟩ := hx
  obtain rfl : m = n := Option.some.inj (hm.symm.trans (hdst ▸ hn))
  have hdriver := (htidy _ _ hm).driver _ _ hin _ (hport ▸ hin')
  exact Edge.ext_iff.mpr ⟨congrArg Endpoint.node hdriver, congrArg Endpoint.port hdriver, hdst, hport⟩

/-! ## Adding an edge -/

theorem node_ok (h : d.node? i = some n) : d.node i = .ok n := by rw [node, h]

theorem insertPort_ok {ports : Relation String Endpoint} {s : Endpoint} (h : ports.declares port = true) :
    insertPort ports port s = .ok (ports.add port s) := by
  rw [insertPort, Relation.insert_ok h]
  rfl

/-- A node takes a source: units take operand ports for operands that they do not bind yet. -/
def Takes (d : Draft) (dst src : NodeId) : Prop := ∀ ops operands, d.kind? dst = some (.functionalUnit ops operands) →
  ∃ operand, d.kind? src = some (.operandPort operand) ∧ operands.get? operand = none

theorem takes_of_ne {dst src : NodeId} (h : ∀ ops operands, d.kind? dst ≠ some (.functionalUnit ops operands)) : d.Takes dst src :=
  fun ops operands hunit => absurd hunit (h ops operands)

theorem bindOperand_ok (port : String) {src dst : Node} (hsrc : d.node? e.src = some src) (hdst : d.node? e.dst = some dst)
    (htakes : d.Takes e.dst e.src) : ∃ kind, bindOperand src dst port = .ok kind := by
  unfold bindOperand
  split
  · next ops operands hunit =>
    obtain ⟨operand, hport, hnone⟩ := htakes ops operands (by rw [kind?_of_node? hdst, hunit])
    rw [kind?_of_node? hsrc] at hport
    rw [Option.some.inj hport]
    dsimp only
    rw [SortedMap.contains, hnone]
    exact ⟨_, rfl⟩
  · exact ⟨_, rfl⟩

/-- An edge from a declared output to a free and declared input of a node that takes it is refused only between a node and
itself. -/
theorem failsOnly_wire (hsrc : d.HasOutput e.src e.srcPort) (hdst : d.HasInput e.dst e.dstPort)
    (hfree : ∀ x, d.Has x → x.dst = e.dst → x.dstPort ≠ e.dstPort) (htakes : d.Takes e.dst e.src) :
    FailsOnly (fun err => e.src = e.dst ∧ err.IsLoop) (d.wire e) := by
  obtain ⟨src, hsrc, hsrcPort⟩ := hasOutput_iff.mp hsrc
  obtain ⟨dst, hdst, hdstPort⟩ := hasInput_iff.mp hdst
  have hnone : dst.driver? e.dstPort = none := by
    refine List.head?_eq_none_iff.mpr (List.eq_nil_iff_forall_not_mem.mpr fun s hs => ?_)
    exact hfree ⟨s.node, s.port, e.dst, e.dstPort⟩ ⟨dst, hdst, hs⟩ rfl rfl
  obtain ⟨kind, hkind⟩ := bindOperand_ok e.dstPort hsrc hdst htakes
  unfold wire
  rw [node_ok hsrc, ok_bind]
  by_cases hself : e.src = e.dst
  · rw [if_pos hself]
    exact .of_error ⟨hself, .selfEdge⟩
  · refine .of_ok ?_
    rw [if_neg hself]
    simp only [hsrcPort, hdstPort, node_ok hdst, hnone, hkind, insertPort_ok, ok_bind]
    exact ⟨_, rfl⟩

/-- So it is added between two nodes. -/
theorem exists_wire (hne : e.src ≠ e.dst) (hsrc : d.HasOutput e.src e.srcPort) (hdst : d.HasInput e.dst e.dstPort)
    (hfree : ∀ x, d.Has x → x.dst = e.dst → x.dstPort ≠ e.dstPort) (htakes : d.Takes e.dst e.src) : ∃ d', d.wire e = .ok d' :=
  FailsOnly.exists_ok fun err herr => hne (failsOnly_wire hsrc hdst hfree htakes err herr).1

/-! ## Removing an edge -/

/-- An edge that is there can be removed. -/
theorem exists_unwire (hd : d.Sound) (he : d.Has e) : ∃ d', d.unwire e = .ok d' := by
  obtain ⟨src, hsrc, hout⟩ := hd.sends_iff.mpr he
  obtain ⟨dst, hdst, hin⟩ := id he
  have hsrcId := hd.id hsrc
  have hdst' (outputs : Relation String Endpoint) : (d.setNode { src with outputs }).node? e.dst = some dst := by
    rw [node?_setNode (by rw [hsrcId]; exact node?_lt hsrc), if_neg (by rw [hsrcId]; exact (hd.loopless he).symm), hdst]
  unfold unwire
  rw [node_ok hsrc, ok_bind]
  dsimp only
  rw [node_ok (hdst' _), ok_bind, Relation.remove_fst.mpr hout, Relation.remove_fst.mpr hin]
  exact ⟨_, rfl⟩

/-- Edges that are there can be removed one after the other. -/
theorem exists_unwires {edges : List Edge} (hd : d.Sound) (hnodup : edges.Nodup) (hedges : ∀ e ∈ edges, d.Has e) :
    ∃ d', edges.foldlM unwire d = .ok d' := by
  refine FailsOnly.exists_ok (FailsOnly.foldlM (fun d edges => d.Sound ∧ edges.Nodup ∧ ∀ e ∈ edges, d.Has e) ⟨hd, hnodup, hedges⟩ ?_)
  rintro d e edges ⟨hd, hnodup, hedges⟩
  obtain ⟨he, hnodup⟩ := List.nodup_cons.mp hnodup
  refine ⟨.of_ok (exists_unwire hd (hedges e List.mem_cons_self)), fun d' h => ⟨hd.unwire h, hnodup, fun x hx => ?_⟩⟩
  refine (has_unwire hd h).mpr ⟨hedges x (List.mem_cons_of_mem _ hx), ?_⟩
  rintro rfl
  exact he hx

/-! ## Putting a tie on an edge -/

theorem shell?_splitWithTie (hd : d.Sound) (h : d.splitWithTie e = .ok d') (hi : i < d.slots.size) : d'.shell? i = d.shell? i := by
  unfold splitWithTie at h
  obtain ⟨d₁, h₁, h⟩ := bind_eq_ok h
  obtain ⟨src, -, h⟩ := bind_eq_ok h
  obtain ⟨dst, -, h⟩ := bind_eq_ok h
  obtain ⟨d₂, h₂, h⟩ := bind_eq_ok h
  have hadded : (d₁.addNode (tieName src dst e) src.context .tie [e.dstPort] [tieOutput e]).2.Sound := (hd.unwire h₁).addNode nofun
  have hold : i ≠ d₁.slots.size := size_unwire h₁ ▸ Nat.ne_of_lt hi
  rw [shell?_wire (hadded.wire h₂) h, shell?_wire hadded h₂, shell?_addNode, if_neg hold, shell?_unwire hd h₁]

theorem size_splitWithTie (h : d.splitWithTie e = .ok d') : d'.slots.size = d.slots.size + 1 := by
  unfold splitWithTie at h
  obtain ⟨d₁, h₁, h⟩ := bind_eq_ok h
  obtain ⟨src, -, h⟩ := bind_eq_ok h
  obtain ⟨dst, -, h⟩ := bind_eq_ok h
  obtain ⟨d₂, h₂, h⟩ := bind_eq_ok h
  rw [size_wire h, size_wire h₂, ← size_unwire h₁]
  exact Array.size_push ..

/-- A tie can be put on every edge to a mux. -/
theorem exists_splitWithTie (hd : d.Sound) (htidy : d.Tidy) (he : d.Has e) (hmux : d.kind? e.dst = some .mux) :
    ∃ d', d.splitWithTie e = .ok d' := by
  obtain ⟨hsrcPort, hdstPort⟩ := htidy.ports hd he
  obtain ⟨d₁, h₁⟩ := exists_unwire hd he
  have hd₁ := hd.unwire h₁
  have hhas₁ {x : Edge} : d₁.Has x ↔ d.Has x ∧ x ≠ e := has_unwire hd h₁
  have hsize₁ := size_unwire h₁
  have hmux₁ : d₁.kind? e.dst = some .mux := (kind?_unwire_of_routing hd h₁ rfl).mpr hmux
  have hsrcPort₁ := hsrcPort.congr (shell?_unwire hd h₁)
  have hdstPort₁ := hdstPort.congr (shell?_unwire hd h₁)
  obtain ⟨src, hsrc, -⟩ := hasOutput_iff.mp hsrcPort₁
  obtain ⟨dst, hdst, -⟩ := hasInput_iff.mp hdstPort₁
  have hsrcLt := node?_lt hsrc
  have hdstLt := node?_lt hdst
  -- The tie node is new, so no edge ends there and both ends of the edge are other nodes.
  let d₂ := (d₁.addNode (tieName src dst e) src.context .tie [e.dstPort] [tieOutput e]).2
  have hd₂ : d₂.Sound := hd₁.addNode nofun
  have hhas₂ {x : Edge} : d₂.Has x ↔ d₁.Has x := has_addNode
  have hshell₂ {i : NodeId} (hi : i < d₁.slots.size) : d₂.shell? i = d₁.shell? i := by
    rw [shell?_addNode, if_neg (Nat.ne_of_lt hi)]
  have htie₂ : d₂.shell? d₁.slots.size =
      some ⟨d₁.slots.size, tieName src dst e, src.context, SortedSet.ofList [e.dstPort], SortedSet.ofList [tieOutput e]⟩ := by
    rw [shell?_addNode, if_pos rfl]
  have htieIn : d₂.HasInput d₁.slots.size e.dstPort := ⟨_, htie₂, SortedSet.mem_ofList.mpr List.mem_cons_self⟩
  have htieOut : d₂.HasOutput d₁.slots.size (tieOutput e) := ⟨_, htie₂, SortedSet.mem_ofList.mpr List.mem_cons_self⟩
  obtain ⟨d₃, h₃⟩ : ∃ d₃, d₂.wire ⟨e.src, e.srcPort, d₁.slots.size, e.dstPort⟩ = .ok d₃ := by
    refine exists_wire (Nat.ne_of_lt hsrcLt) (hsrcPort₁.congr (hshell₂ hsrcLt)) htieIn (fun x hx hdst => ?_)
      (takes_of_ne fun ops operands hunit => ?_)
    · obtain ⟨m, hm⟩ := (hd₁.ends (hhas₂.mp hx)).2
      exact absurd hdst (Nat.ne_of_lt (node?_lt hm))
    · rw [kind?_addNode, if_pos rfl] at hunit
      cases hunit
  have hmux₃ : d₃.kind? e.dst = some .mux := by
    rw [kind?_wire_of_routing hd₂ h₃ rfl, kind?_addNode, if_neg (Nat.ne_of_lt hdstLt), hmux₁]
  obtain ⟨d₄, h₄⟩ : ∃ d₄, d₃.wire ⟨d₁.slots.size, tieOutput e, e.dst, e.dstPort⟩ = .ok d₄ := by
    refine exists_wire (Nat.ne_of_gt hdstLt) (htieOut.congr (shell?_wire hd₂ h₃))
      (hdstPort₁.congr ((shell?_wire hd₂ h₃).trans (hshell₂ hdstLt))) (fun x hx hdst hport => ?_)
      (takes_of_ne fun ops operands hunit => ?_)
    · -- The only edge to this input was the one that is removed.
      rcases (has_wire hd₂ h₃).mp hx with rfl | hx
      · exact Nat.ne_of_gt hdstLt hdst
      · obtain ⟨hx, hne⟩ := hhas₁.mp (hhas₂.mp hx)
        exact hne (htidy.eq_of_dst he hx hdst hport)
    · rw [hmux₃] at hunit
      cases hunit
  refine ⟨d₄, ?_⟩
  unfold splitWithTie
  rw [h₁, ok_bind, node_ok hsrc, ok_bind, node_ok hdst, ok_bind]
  show d₂.wire _ >>= _ = _
  rw [h₃, ok_bind]
  exact h₄

/-- Ties can be put on edges between muxes one after the other. -/
theorem exists_splitWithTies {edges : List Edge} (hd : d.Sound) (htidy : d.Tidy) (hnodup : edges.Nodup)
    (hedges : ∀ e ∈ edges, d.JoinsMuxes e) : ∃ d', edges.foldlM splitWithTie d = .ok d' := by
  refine FailsOnly.exists_ok (FailsOnly.foldlM
    (fun d edges => d.Sound ∧ d.Tidy ∧ edges.Nodup ∧ ∀ e ∈ edges, d.JoinsMuxes e) ⟨hd, htidy, hnodup, hedges⟩ ?_)
  rintro d e edges ⟨hd, htidy, hnodup, hedges⟩
  obtain ⟨he, hnodup⟩ := List.nodup_cons.mp hnodup
  obtain ⟨hhas, -, hmux⟩ := hedges e List.mem_cons_self
  refine ⟨.of_ok (exists_splitWithTie hd htidy hhas hmux), fun d' h =>
    ⟨hd.splitWithTie h, htidy.splitWithTie h, hnodup, fun x hx => ?_⟩⟩
  obtain ⟨hxhas, hxsrc, hxdst⟩ := hedges x (List.mem_cons_of_mem _ hx)
  obtain ⟨-, -, hkind, hhas'⟩ := splitWithTie_eq_ok hd h hmux
  have hne : x ≠ e := by
    rintro rfl
    exact he hx
  refine ⟨(hhas' x).mpr (Or.inl ⟨hxhas, hne⟩), ?_, ?_⟩
  · rw [hkind, if_neg (Nat.ne_of_lt (kind?_lt hxsrc)), hxsrc]
  · rw [hkind, if_neg (Nat.ne_of_lt (kind?_lt hxdst)), hxdst]

/-! ## Taking registers out -/

/-- The node is there and is no unit. -/
def Routes (d : Draft) (i : NodeId) : Prop := ∃ k, d.kind? i = some k ∧ (k matches .functionalUnit _ _) = false

theorem Routes.takes {src : NodeId} (h : d.Routes i) : d.Takes i src := by
  obtain ⟨k, hk, hrouting⟩ := h
  refine takes_of_ne fun ops operands hunit => ?_
  rw [hk] at hunit
  cases hunit
  cases hrouting

theorem Routes.wire (hd : d.Sound) (h : d.wire e = .ok d') (hi : d.Routes i) : d'.Routes i := by
  obtain ⟨k, hk, hrouting⟩ := hi
  exact ⟨k, (kind?_wire_of_routing hd h hrouting).mpr hk, hrouting⟩

theorem Routes.unwire (hd : d.Sound) (h : d.unwire e = .ok d') (hi : d.Routes i) : d'.Routes i := by
  obtain ⟨k, hk, hrouting⟩ := hi
  exact ⟨k, (kind?_unwire_of_routing hd h hrouting).mpr hk, hrouting⟩

/-- What a register drives is no unit, as units are driven by operand ports. -/
theorem Sound.routes_of_register (hd : d.Sound) (he : d.Has e) (hr : d.kind? e.src = some .register) : d.Routes e.dst := by
  obtain ⟨n, hn⟩ := (hd.ends he).2
  have hk := kind?_of_node? hn
  cases hkind : n.kind with
  | functionalUnit ops operands =>
    obtain ⟨operand, hport⟩ := hd.binds.driver (hkind ▸ hk) he
    rw [hr] at hport
    cases hport
  | _ => exact ⟨_, hk, by rw [hkind]⟩

/-- The inputs of some edges can be driven from an output: they are declared, free and different, and none is a unit's. -/
structure Open (d : Draft) (edges : List Edge) : Prop where
  sound : d.Sound
  input : ∀ e ∈ edges, d.HasInput e.dst e.dstPort
  free : ∀ e ∈ edges, ∀ x, d.Has x → x.dst = e.dst → x.dstPort ≠ e.dstPort
  routes : ∀ e ∈ edges, d.Routes e.dst
  distinct : edges.Pairwise fun e x => e.dst = x.dst → e.dstPort ≠ x.dstPort

/-- Driving the inputs one after the other fails at most because one is at the driver itself. -/
theorem Open.failsOnly_wires {edges : List Edge} (h : d.Open edges) (hsrc : d.HasOutput i port) :
    FailsOnly BuildError.IsLoop (edges.foldlM (fun d e => d.wire ⟨i, port, e.dst, e.dstPort⟩) d) := by
  refine FailsOnly.foldlM (fun d edges => d.Open edges ∧ d.HasOutput i port) ⟨h, hsrc⟩ ?_
  rintro d e edges ⟨h, hsrc⟩
  have he : e ∈ e :: edges := List.mem_cons_self
  obtain ⟨hnew, hdistinct⟩ := List.pairwise_cons.mp h.distinct
  have hfails := failsOnly_wire (e := ⟨i, port, e.dst, e.dstPort⟩) hsrc (h.input e he) (h.free e he) (h.routes e he).takes
  refine ⟨fun err herr => (hfails err herr).2,
    fun d' hwire => ⟨⟨h.sound.wire hwire, fun x hx => ?_, fun x hx y hy hdst => ?_, fun x hx => ?_, hdistinct⟩,
      hsrc.congr (shell?_wire h.sound hwire)⟩⟩
  · exact (h.input x (List.mem_cons_of_mem _ hx)).congr (shell?_wire h.sound hwire)
  · rcases (has_wire h.sound hwire).mp hy with rfl | hy
    · exact hnew x hx hdst
    · exact h.free x (List.mem_cons_of_mem _ hx) y hy hdst
  · exact (h.routes x (List.mem_cons_of_mem _ hx)).wire h.sound hwire

/-- Taking a register out fails at most because its driver is one of its consumers. -/
theorem failsOnly_elideRegister (hd : d.Sound) (htidy : d.Tidy) (hr : d.kind? r = some .register) :
    FailsOnly BuildError.IsLoop (d.elideRegister r) := by
  obtain ⟨n, hn, -⟩ := Option.map_eq_some_iff.mp hr
  have hin {x : Edge} : x ∈ n.incoming ↔ d.Has x ∧ x.dst = r := hd.mem_incoming hn
  have hout {x : Edge} : x ∈ n.outgoing ↔ d.Has x ∧ x.src = r := hd.mem_outgoing hn
  have hnodup : (n.incoming ++ n.outgoing).Nodup := by
    refine List.nodup_append.mpr ⟨n.nodup_incoming, n.nodup_outgoing, fun x hx y hy hxy => ?_⟩
    obtain ⟨hhas, hdst⟩ := hin.mp hx
    exact hd.loopless hhas ((hxy ▸ (hout.mp hy).2).trans hdst.symm)
  have hedges : ∀ x ∈ n.incoming ++ n.outgoing, d.Has x := fun x hx =>
    (List.mem_append.mp hx).elim (fun h => (hin.mp h).1) (fun h => (hout.mp h).1)
  obtain ⟨d₁, h₁⟩ := exists_unwires hd hnodup hedges
  obtain ⟨hd₁, hhas₁⟩ := hd.unwires h₁
  obtain ⟨-, hshell₁, hroutes₁⟩ : d₁.Sound ∧ (∀ i, d₁.shell? i = d.shell? i) ∧ ∀ i, d.Routes i → d₁.Routes i :=
    foldlM_induction (fun d' => d'.Sound ∧ (∀ i, d'.shell? i = d.shell? i) ∧ ∀ i, d.Routes i → d'.Routes i)
      ⟨hd, fun _ => rfl, fun _ h => h⟩
      (fun _ _ _ _ ⟨hs, hshell, hroutes⟩ h => ⟨hs.unwire h, fun i => (shell?_unwire hs h).trans (hshell i),
        fun i hi => (hroutes i hi).unwire hs h⟩) h₁
  unfold elideRegister
  rw [node_ok hn, ok_bind]
  dsimp only
  rw [h₁, ok_bind]
  split
  · exact .of_ok ⟨_, rfl⟩
  next driver rest hincoming =>
  refine FailsOnly.bind ?_ fun _ _ => .of_ok ⟨_, rfl⟩
  obtain ⟨hdriver, -⟩ := hin.mp (hincoming ▸ List.mem_cons_self : driver ∈ n.incoming)
  refine Open.failsOnly_wires ⟨hd₁, fun x hx => ?_, fun x hx y hy hdst hport => ?_, fun x hx => ?_, ?_⟩
    ((htidy.ports hd hdriver).1.congr (hshell₁ _))
  · exact (htidy.ports hd (hout.mp hx).1).2.congr (hshell₁ _)
  · obtain ⟨hy, hgone⟩ := hhas₁.mp hy
    rw [htidy.eq_of_dst (hout.mp hx).1 hy hdst hport] at hgone
    exact hgone (List.mem_append_right _ hx)
  · exact hroutes₁ _ (hd.routes_of_register (hout.mp hx).1 ((hout.mp hx).2 ▸ hr))
  · refine n.nodup_outgoing.imp_of_mem fun {x y} hx hy hne hdst hport => hne ?_
    exact htidy.eq_of_dst (hout.mp hy).1 (hout.mp hx).1 hdst hport

/-- Taking all registers out fails at most because one of them drives its own driver. -/
theorem failsOnly_elideRegisters (hd : d.Sound) (htidy : d.Tidy) : FailsOnly BuildError.IsLoop d.elideRegisters := by
  refine FailsOnly.foldlM (fun d registers => d.Sound ∧ d.Tidy ∧ registers.Nodup ∧ ∀ r ∈ registers, d.kind? r = some .register)
    ⟨hd, htidy, (nodup_ids hd).sublist (List.filter_sublist.map _), fun r hr => (mem_registers hd).mp hr⟩ ?_
  rintro d r registers ⟨hd, htidy, hnodup, hregisters⟩
  obtain ⟨hr, hnodup⟩ := List.nodup_cons.mp hnodup
  refine ⟨failsOnly_elideRegister hd htidy (hregisters r List.mem_cons_self), fun d' h =>
    ⟨hd.elideRegister h, htidy.elideRegister h, hnodup, fun i hi => ?_⟩⟩
  refine (kind?_elideRegister hd h rfl).mpr ⟨hregisters i (List.mem_cons_of_mem _ hi), ?_⟩
  rintro rfl
  exact hr hi

/-! ## Refusing short loops -/

/-- Looking for short loops finds every node that it looks at. -/
theorem failsOnly_checkShortLoops (hd : d.Sound) : FailsOnly BuildError.IsLoop d.checkShortLoops := by
  refine FailsOnly.forM fun n hn => FailsOnly.forM fun next hnext => ?_
  obtain ⟨port, p, hsends⟩ := Node.mem_fanout.mp hnext
  obtain ⟨via, hvia⟩ := (hd.ends (hd.sends_iff.mp ⟨n, (mem_nodes hd).mp hn, hsends⟩ : d.Has ⟨n.id, port, next, p⟩)).2
  dsimp only at hvia ⊢
  split
  · exact .of_error .selfLoop
  rw [node_ok hvia]
  show FailsOnly _ (ite _ _ _)
  split
  · exact .of_error .twoHopLoop
  · exact .of_ok ⟨_, rfl⟩

end Draft
end Graph
end PlaceRoute
