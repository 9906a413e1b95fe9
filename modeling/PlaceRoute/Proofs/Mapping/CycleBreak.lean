import PlaceRoute.Fabric.Validation
import PlaceRoute.Proofs.Graph.CycleBreak
import PlaceRoute.Proofs.Mapping.Faithful
import PlaceRoute.Proofs.Mapping.Links

/-!
# How cycles are broken decides what can be mapped

A node hands a flow on to exactly one node that carries it, so a flow that visits both ends of an edge has to take the edge; a tie on
the edge lifts this. Where only edges that close a cycle of muxes get ties, the families can be satisfied exactly if they can with
ties on all edges between muxes by flows that take the other edges too (`backEdges_satisfiable_iff`). So what can be mapped in the
first way can be mapped in the second, but not the other way round (`ring_allMuxEdges_only`).
-/

namespace PlaceRoute

/-- A flow that is carried at both ends of an edge between muxes of `g₁` runs over a tie between the two in `g₂`. -/
def Bridged (g₁ g₂ : Graph) (d : Design) (δ : Key → Bool) : Prop :=
  ∀ x ∈ g₁.ids, ∀ y ∈ g₁.fanout x, ∀ v t, d.HasFlow v t →
    (g₁.kind? x = some .mux ∧ g₁.kind? y = some .mux) ∧ δ (.routeTo x v.id t) = true ∧ δ (.routeTo y v.id t) = true →
    ∃ tie ∈ g₂.fanout x, g₂.kind? tie = some .tie ∧ y ∈ g₂.fanout tie ∧ δ (.routeTo tie v.id t) = true

instance {g₁ g₂ : Graph} {d : Design} {δ : Key → Bool} : Decidable (Bridged g₁ g₂ d δ) := by unfold Bridged; infer_instance

namespace Graph.Tied

variable {g₀ g : Graph} {whole : NodeId → NodeId → Prop} {ends : List (NodeId × NodeId)} (h : g₀.Tied g whole ends) {x y k : Nat}
include h

/-- A mux of a tied graph is one of the old nodes. -/
theorem lt_of_mux (hx : g.kind? x = some .mux) : x < g₀.nodes.size := by
  rcases h.old_or_tie (has_iff_kind?.mpr ⟨_, hx⟩) with hlt | ⟨j, hj, rfl⟩
  · exact hlt
  · rw [h.tie hj] at hx
    cases hx

/-- An edge between muxes of a tied graph has no tie. -/
theorem whole_of_mux (hx : g.kind? x = some .mux) (hy : g.kind? y = some .mux) (hxy : y ∈ g.fanout x) : whole x y := by
  rcases (h.mem_fanout_old (h.lt_of_mux hx)).mp hxy with hw | ⟨j, b, -, rfl⟩
  · exact hw
  · exact absurd (h.lt_of_mux hy) (Nat.not_lt.mpr (Nat.le_add_right _ _))

/-- The nodes before and behind a tie are the ends of its edge. -/
theorem tie_between (hg₀ : g₀.WellWired) (hx : x < g₀.nodes.size) (huntied : g₀.kind? k ≠ some .tie) (hk : g.kind? k = some .tie)
    (hxk : k ∈ g.fanout x) (hky : y ∈ g.fanout k) : ∃ j, k = g₀.nodes.size + j ∧ ends[j]? = some (x, y) := by
  rcases h.old_or_tie (has_iff_kind?.mpr ⟨_, hk⟩) with hlt | ⟨j, -, rfl⟩
  · exact absurd (h.kind hlt ▸ hk) huntied
  · obtain ⟨a, ha⟩ := (h.mem_fanout_tie hg₀).mp hky
    refine ⟨j, rfl, ?_⟩
    rcases (h.mem_fanout_old hx).mp hxk with hw | ⟨j', b, hb, hj⟩
    · exact absurd (h.lt_of_whole hg₀ hw).2 (Nat.not_lt.mpr (Nat.le_add_right _ _))
    · obtain rfl := Nat.add_left_cancel hj
      cases ha.symm.trans hb
      exact ha

end Graph.Tied

/-! ## One graph tied in two ways -/

namespace Graph.Tied

variable {g₀ g₁ g₂ : Graph} {whole₁ whole₂ : NodeId → NodeId → Prop} {ends₁ ends₂ : List (NodeId × NodeId)}
  (h₁ : g₀.Tied g₁ whole₁ ends₁) (h₂ : g₀.Tied g₂ whole₂ ends₂) (hg₀ : g₀.WellWired) {d : Design} {δ : Key → Bool}
include h₁ h₂ hg₀

/-- With ties on all edges between muxes, flows that take the edges without a tie in the first graph run over ties there. -/
theorem bridged_overTies {link : Value → Terminal → NodeId → NodeId → Prop} (hd : d.WellWired) (hlinked : Linked g₀ d δ link)
    (htakes₁ : TakesWhole d whole₁ δ link) (htakes₂ : TakesWhole d whole₂ δ link)
    (hmux : ∀ x y, whole₂ x y → ¬ (g₀.kind? x = some .mux ∧ g₀.kind? y = some .mux)) :
    Bridged g₁ g₂ d (g₀.overTies d whole₂ ends₂ link δ) := by
  rintro x - y hxy v t hflow ⟨⟨hxmux, hymux⟩, hx, hy⟩
  have hxlt := h₁.lt_of_mux hxmux
  have hylt := h₁.lt_of_mux hymux
  have hlink := htakes₁ x y (h₁.whole_of_mux hxmux hymux hxy) v t hflow ((overTies_routeTo hxlt).symm.trans hx)
    ((overTies_routeTo hylt).symm.trans hy)
  obtain ⟨-, -, hw | ⟨j, hj, hset⟩⟩ := (h₂.links_overTies_iff hg₀ hd hlinked htakes₂ hflow).mpr hlink
  · exact absurd ⟨h₁.kind hxlt ▸ hxmux, h₁.kind hylt ▸ hymux⟩ (hmux x y hw)
  · have htie : g₀.nodes.size + j ∈ g₂.fanout x := (h₂.mem_fanout_old hxlt).mpr (Or.inr ⟨j, y, hj, rfl⟩)
    exact ⟨_, htie, h₂.tie (List.getElem?_eq_some_iff.mp hj).1, (h₂.mem_fanout_tie hg₀).mpr ⟨x, hj⟩, hset⟩

/-- Flows that run over ties in the second graph wherever the first has none take the edges without a tie in the first. -/
theorem takesWhole_of_bridged (hg₁ : g₁.WellWired) (huntied : ∀ i, g₀.kind? i ≠ some .tie) (hbridged : Bridged g₁ g₂ d δ) :
    TakesWhole d whole₁ δ (g₀.links whole₂ ends₂ δ) := by
  intro x y hw v t hflow hx hy
  refine ⟨hx, hy, ?_⟩
  rcases h₂.edge.mp (h₁.edge.mpr (Or.inl hw)) with hw₂ | hends
  · exact Or.inl hw₂
  · obtain ⟨hxlt, hylt⟩ := h₁.lt_of_whole hg₀ hw
    obtain ⟨hxmux, hymux⟩ := h₂.mux hends
    have hxy : y ∈ g₁.fanout x := (h₁.mem_fanout_old hxlt).mpr (Or.inl hw)
    obtain ⟨tie, hxtie, hkind, htiey, hset⟩ := hbridged x (hg₁.mem_ids.mpr (has_of_mem_fanout hxy)) y hxy v t hflow
      ⟨⟨h₁.kind hxlt ▸ hxmux, h₁.kind hylt ▸ hymux⟩, hx, hy⟩
    obtain ⟨j, rfl, hj⟩ := h₂.tie_between hg₀ hxlt (huntied tie) hkind hxtie htiey
    exact Or.inr ⟨j, hj, hset⟩

end Graph.Tied

/-- The families can be satisfied where cycles are broken at the edges that close them exactly if, with ties on all edges between
muxes, they are satisfied by decisions whose flows run over the tie wherever they are carried at both ends of an edge that the
first graph leaves whole. -/
theorem backEdges_satisfiable_iff {f : Fabric} (options : GraphOptions) {g₁ g₂ : Graph} {d : Design}
    {operations : SortedMap String String} {ties : List NamedTie} {duplicates : SortedSet String}
    (h₁ : Graph.build f { options with cycleBreak := .backEdges } = .ok g₁)
    (h₂ : Graph.build f { options with cycleBreak := .allMuxEdges } = .ok g₂)
    (hd : Design.new operations ties duplicates = .ok d) :
    (∃ δ, Family.AllHold g₁ d δ) ↔ ∃ δ, Family.AllHold g₂ d δ ∧ Bridged g₁ g₂ d δ := by
  obtain ⟨g₀, whole₁, whole₂, ends₁, ends₂, hg₀, huntied, ht₁, ht₂, hwhole⟩ := Graph.exists_tied_of_build h₁ h₂
  have hg₁ := Graph.wellWired_build h₁
  have hg₂ := Graph.wellWired_build h₂
  have hd := Design.wellWired_new hd
  -- A mapping onto the one graph is taken off its ties and laid over those of the other.
  constructor
  · rintro ⟨δ, hall⟩
    have hlinked := ht₁.linked_of_allHold hg₀ hg₁ hall
    have htakes₁ : Graph.TakesWhole d whole₁ δ (g₀.links whole₁ ends₁ δ) := fun x y hw v t _ hx hy => ⟨hx, hy, Or.inl hw⟩
    have htakes₂ : Graph.TakesWhole d whole₂ δ (g₀.links whole₁ ends₁ δ) := fun x y hw => htakes₁ x y (hwhole x y hw).1
    have hbridged := ht₁.bridged_overTies ht₂ hg₀ hd hlinked htakes₁ htakes₂ fun x y hw => (hwhole x y hw).2
    exact ⟨_, ht₂.allHold_overTies hg₀ hd hlinked htakes₂ hg₂, hbridged⟩
  · rintro ⟨δ, hall, hbridged⟩
    have hlinked := ht₂.linked_of_allHold hg₀ hg₂ hall
    have htakes := ht₁.takesWhole_of_bridged ht₂ hg₀ hg₁ huntied hbridged
    exact ⟨_, ht₁.allHold_overTies hg₀ hd hlinked htakes hg₁⟩

/-- A ring of three muxes. The source drives the second, and the mux `out` drives the port of the sink. -/
def Fabric.ring (out : String) : Fabric where
  blocks := [{
    location := ⟨0, 0⟩
    instances := [⟨"source", .functionalUnit, [], ["out"], SortedSet.ofList ["const"]⟩,
      ⟨"sink", .functionalUnit, ["a"], [], SortedSet.ofList ["store"]⟩]
    muxes := [⟨"m0", ["in"], "out"⟩, ⟨"m1", ["in", "back"], "out"⟩, ⟨"m2", ["in"], "out"⟩]
    operandPorts := [⟨"port", "in", "out", 0⟩] }]
  ties := [⟨⟨⟨0, 0⟩, "source", "out"⟩, ⟨0, 0⟩, "m1", "in"⟩, ⟨⟨⟨0, 0⟩, "m0", "out"⟩, ⟨0, 0⟩, "m1", "back"⟩,
    ⟨⟨⟨0, 0⟩, "m1", "out"⟩, ⟨0, 0⟩, "m2", "in"⟩, ⟨⟨⟨0, 0⟩, "m2", "out"⟩, ⟨0, 0⟩, "m0", "in"⟩,
    ⟨⟨⟨0, 0⟩, out, "out"⟩, ⟨0, 0⟩, "port", "in"⟩, ⟨⟨⟨0, 0⟩, "port", "out"⟩, ⟨0, 0⟩, "sink", "a"⟩]

/-- The source and the sink of the ring are placed, and the value runs over these nodes. -/
def Model.around (nodes : List NodeId) : Model :=
  .ofList ((.place 0 0, 1) :: (.place 1 1, 1) :: nodes.flatMap fun n => [(.route n 0, 1), (.routeTo n 0 ⟨1, 0⟩, 1)])

theorem ring_backEdges_satisfiable : ∃ (g₁ g₂ : Graph) (d : Design),
    Graph.build (.ring "m2") { cycleBreak := .backEdges } = .ok g₁ ∧
    Graph.build (.ring "m2") { cycleBreak := .allMuxEdges } = .ok g₂ ∧
    Design.new (.ofList [("c", "const"), ("s", "store")]) [⟨"c", "s", 0⟩] ∅ = .ok d ∧ ∃ δ, Family.AllHold g₁ d δ := by
  have hholds : ((Graph.build (.ring "m2") { cycleBreak := .backEdges }).toOption.any fun g₁ =>
      (Graph.build (.ring "m2") { cycleBreak := .allMuxEdges }).toOption.any fun g₂ =>
        (Design.new (.ofList [("c", "const"), ("s", "store")]) [⟨"c", "s", 0⟩] ∅).toOption.any fun d =>
          decide (Family.AllHold g₂ d (Model.around [0, 3, 7, 4, 5]).isSet ∧
            Bridged g₁ g₂ d (Model.around [0, 3, 7, 4, 5]).isSet)) = true := by
    decide +kernel
  obtain ⟨g₁, g₂, d, h₁, h₂, hd⟩ : ∃ g₁ g₂ d, Graph.build (.ring "m2") { cycleBreak := .backEdges } = .ok g₁ ∧
    Graph.build (.ring "m2") { cycleBreak := .allMuxEdges } = .ok g₂ ∧
    Design.new (.ofList [("c", "const"), ("s", "store")]) [⟨"c", "s", 0⟩] ∅ = .ok d := ⟨_, _, _, rfl, rfl, rfl⟩
  rw [h₁, h₂, hd] at hholds
  exact ⟨g₁, g₂, d, h₁, h₂, hd, (backEdges_satisfiable_iff {} h₁ h₂ hd).mpr ⟨_, of_decide_eq_true hholds⟩⟩

/-! ## What a mapping has to do -/

section
variable {g : Graph} {d : Design} {δ : Key → Bool} {v : Value} {t : Terminal} {u m n : NodeId} {op : Operation}
  (hall : Family.AllHold g d δ)
include hall

/-- An operation stands on the one unit that supports it. -/
theorem place_of_supports (hop : op ∈ d.operations) (honly : ∀ u' ∈ g.units, Family.supports g u' op = true → u' = u) :
    δ (.place u op.id) = true := by
  obtain ⟨u', hu', hplace⟩ : ∃ u' ∈ g.units, δ (.place u' op.id) = true := by
    have hone := hall .opPlacement op hop
    split at hone
    · exact hone
    · exact List.countP_pos_iff.mp (Nat.lt_of_lt_of_eq Nat.one_pos hone.symm)
  have hsupports : Family.supports g u' op = true := by
    by_contra hnot
    rw [hall .peLegality u' hu' op hop (Bool.eq_false_iff.mpr hnot)] at hplace
    cases hplace
  exact honly u' hu' hsupports ▸ hplace

/-- A flow is carried at the port of the unit that its operation stands on. -/
theorem carried_at_port {node : Node} (hu : u ∈ g.units) (hnode : g.node? u = some node)
    (hport : node.operandPort? t.operand = some n) (hflow : d.HasFlow v t) (hop : d.op? t.op = some op)
    (hsupports : Family.supports g u op = true) (hplace : δ (.place u op.id) = true) : δ (.routeTo n v.id t) = true := by
  obtain ⟨-, hown, -⟩ := Family.flowsEndAtPorts_iff.mp (hall .portPlacement) u hu node hnode v t hflow op hop
  rw [hown n hport, hsupports, hplace, Bool.and_self]

/-- A flow comes from the one driver of a node. -/
theorem carried_of_fanin (hflow : d.HasFlow v t) (hn : n ∈ g.routing) (hfanin : g.fanin n = [m])
    (hset : δ (.routeTo n v.id t) = true) : δ (.routeTo m v.id t) = true := by
  have hone := hall .inputConnectivity n hn v t hflow hset
  rw [hfanin] at hone
  simpa using hone

end

/-- The value gets to the port over the second mux, the third and the first. This one drives the second mux as well, so without a
tie on that edge it hands the value on to two nodes. -/
theorem ring_allMuxEdges_only : ∃ (g₁ g₂ : Graph) (d : Design), (Fabric.ring "m0").validate = .ok () ∧
    Graph.build (.ring "m0") { cycleBreak := .backEdges } = .ok g₁ ∧
    Graph.build (.ring "m0") { cycleBreak := .allMuxEdges } = .ok g₂ ∧
    Design.new (.ofList [("c", "const"), ("s", "store")]) [⟨"c", "s", 0⟩] ∅ = .ok d ∧
    (∃ δ, Family.AllHold g₂ d δ) ∧ ¬ ∃ δ, Family.AllHold g₁ d δ := by
  have hvalid : (Fabric.ring "m0").validate = .ok () := by decide +kernel
  have hholds : ((Graph.build (.ring "m0") { cycleBreak := .allMuxEdges }).toOption.any fun g₂ =>
      (Design.new (.ofList [("c", "const"), ("s", "store")]) [⟨"c", "s", 0⟩] ∅).toOption.any fun d =>
        decide (Family.AllHold g₂ d (Model.around [0, 3, 7, 4, 8, 2, 5]).isSet)) = true := by
    decide +kernel
  have hring : ((Graph.build (.ring "m0") { cycleBreak := .backEdges }).toOption.any fun g₁ =>
      decide ((g₁.units = [0, 1] ∧ [5, 2, 6, 4] ⊆ g₁.routing ∧ 2 ∈ Family.throughNodes g₁ ∧ g₁.fanout 2 = [3, 5]) ∧
        g₁.fanin 5 = [2] ∧ g₁.fanin 2 = [6] ∧ g₁.fanin 6 = [4] ∧ g₁.fanin 4 = [3])) = true := by
    decide +kernel
  have hsink : ((Graph.build (.ring "m0") { cycleBreak := .backEdges }).toOption.any fun g₁ =>
      (Design.new (.ofList [("c", "const"), ("s", "store")]) [⟨"c", "s", 0⟩] ∅).toOption.any fun d =>
        ((g₁.node? 1).any fun n => decide (n.operandPort? 0 = some 5)) &&
          (d.values.any fun v => decide (⟨1, 0⟩ ∈ v.dsts)) && (d.op? 1).any fun op =>
            Family.supports g₁ 1 op && decide (∀ u ∈ g₁.units, Family.supports g₁ u op = true → u = 1)) = true := by
    decide +kernel
  obtain ⟨g₁, g₂, d, h₁, h₂, hd⟩ : ∃ g₁ g₂ d, Graph.build (.ring "m0") { cycleBreak := .backEdges } = .ok g₁ ∧
    Graph.build (.ring "m0") { cycleBreak := .allMuxEdges } = .ok g₂ ∧
    Design.new (.ofList [("c", "const"), ("s", "store")]) [⟨"c", "s", 0⟩] ∅ = .ok d := ⟨_, _, _, rfl, rfl, rfl⟩
  rw [h₂, hd] at hholds
  rw [h₁] at hring
  rw [h₁, hd] at hsink
  obtain ⟨⟨hunits, hrouting, hthrough, hfanout⟩, h5, h2, h6, h4⟩ := of_decide_eq_true hring
  refine ⟨g₁, g₂, d, hvalid, h₁, h₂, hd, ⟨_, of_decide_eq_true hholds⟩, ?_⟩
  rintro ⟨δ, hall⟩
  obtain ⟨hsink, hop⟩ := Bool.and_eq_true_iff.mp hsink
  obtain ⟨hport, hv⟩ := Bool.and_eq_true_iff.mp hsink
  obtain ⟨node, hnode, hport⟩ := (Option.any_eq_true _ _).mp hport
  obtain ⟨v, hv, ht⟩ := List.any_eq_true.mp hv
  obtain ⟨op, hop, hfacts⟩ := (Option.any_eq_true _ _).mp hop
  obtain ⟨hsupports, honly⟩ := Bool.and_eq_true_iff.mp hfacts
  have hflow : d.HasFlow v ⟨1, 0⟩ := ⟨hv, of_decide_eq_true ht⟩
  have hplace := place_of_supports hall (List.mem_of_getElem? hop) (of_decide_eq_true honly)
  have hon := carried_at_port hall (hunits ▸ by decide) hnode (of_decide_eq_true hport) hflow hop hsupports hplace
  have hm0 := carried_of_fanin hall hflow (hrouting (by decide)) h5 hon
  have htie := carried_of_fanin hall hflow (hrouting (by decide)) h2 hm0
  have hm2 := carried_of_fanin hall hflow (hrouting (by decide)) h6 htie
  have hm1 := carried_of_fanin hall hflow (hrouting (by decide)) h4 hm2
  -- The first mux drives both the port and the second mux.
  have hone := hall .outputConnectivity 2 hthrough v ⟨1, 0⟩ hflow hm0
  rw [hfanout] at hone
  simp [hm1, hon] at hone

end PlaceRoute
