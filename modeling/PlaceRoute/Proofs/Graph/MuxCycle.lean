import PlaceRoute.Proofs.Graph.Contract
import PlaceRoute.Proofs.Graph.DepthFirst

/-!
# Cycles of muxes

What depth-first walks find among the muxes of a draft that the steps of building lead to (`Draft.Reached`), or of a finished
graph, cuts all cycles of muxes, and each edge found lies on one. Once these edges are split no cycle is left, so one round of
`Draft.breakBackEdges` is all that there ever is (`Draft.Sound.oneRound`), and graphs built with their cycles broken have
none (`findMuxBackEdges_build`).
-/

namespace PlaceRoute
namespace Graph

/-- The walk over muxes cuts all cycles over the edges from mux to mux, which are those that nodes with these numbers have. -/
theorem cutsCycles_muxBackEdges {node? : NodeId → Option Node} {ids : List NodeId} {P : Edge → Prop}
    (hid : ∀ {i : NodeId} {n : Node}, node? i = some n → n.id = i ∧ i ∈ ids)
    (hP : ∀ {e : Edge}, P e ↔ (node? e.src).any (·.isMux) = true ∧ e ∈ muxEdges node? e.src) :
    CutsCycles P (muxBackEdges node? ids) := by
  have hroot {i : NodeId} : i ∈ ids.filter (fun id => (node? id).any (·.isMux)) ↔ (node? i).any (·.isMux) = true := by
    rw [List.mem_filter]
    refine and_iff_right_of_imp ?_
    intro hmux
    rw [Option.any_eq_true] at hmux
    obtain ⟨n, hn, -⟩ := hmux
    exact (hid hn).2
  refine cutsCycles_backEdges ?_ ?_ ?_
  · intro e
    rw [hP, hroot]
  · intro i e he
    unfold muxEdges at he
    cases hn : node? i with
    | none =>
      rw [hn] at he
      cases he
    | some n =>
      rw [hn] at he
      obtain ⟨-, -, rfl⟩ := List.mem_map.mp (List.mem_filter.mp he).1
      exact (hid hn).1
  · intro e he
    exact hroot.mpr (List.mem_filter.mp (hP.mp he).2).2

namespace Draft

variable {d d' : Draft} {cut : List Edge} {es : List Edge} {f : Fabric} {options : GraphOptions} {contexts : Nat} {g : Graph}

/-! ## Drafts -/

/-- The drafts that the steps of building lead to. -/
inductive Reached : Draft → Prop
  | empty : Reached empty
  | copy {d d' : Draft} {context : Nat} {location : Location} {element : Element} :
    Reached d → addCopy context location d element = .ok d' → Reached d'
  | wire {d d' : Draft} {e : Edge} : Reached d → d.wire e = .ok d' → Reached d'
  | unwire {d d' : Draft} {e : Edge} : Reached d → d.unwire e = .ok d' → Reached d'
  | elide {d d' : Draft} {i : NodeId} : Reached d → d.elideRegister i = .ok d' → Reached d'
  | split {d d' : Draft} {e : Edge} : Reached d → d.splitWithTie e = .ok d' → Reached d'

theorem Reached.sound (h : d.Reached) : d.Sound := by
  induction h with
  | empty => exact sound_empty
  | copy _ h ih => exact ih.addCopy h
  | wire _ h ih => exact ih.wire h
  | unwire _ h ih => exact ih.unwire h
  | elide _ h ih => exact ih.elideRegister h
  | split _ h ih => exact ih.splitWithTie h

theorem reached_unbroken (h : unbroken f options = .ok d) : d.Reached :=
  unbroken_induction .empty .copy .wire .elide h

theorem Reached.breakCycles {policy : CycleBreak} (hd : d.Reached) (h : d.breakCycles policy = .ok d') : d'.Reached :=
  breakCycles_induction .split hd h

/-- What walks find among the muxes of a draft cuts all cycles of muxes. -/
theorem Sound.cutsCycles (hd : d.Sound) : CutsCycles d.JoinsMuxes (muxBackEdges d.node? d.ids) := by
  refine cutsCycles_muxBackEdges ?_ ?_
  · intro i n hn
    exact ⟨hd.id hn, (mem_ids hd).mpr ⟨n, hn⟩⟩
  · intro e
    rw [any_isMux_iff, mem_muxEdges hd]
    constructor
    · rintro ⟨he, hsrc, hdst⟩
      exact ⟨hsrc, he, rfl, hdst⟩
    · rintro ⟨hsrc, he, -, hdst⟩
      exact ⟨he, hsrc, hdst⟩

/-! ## Rounds of splitting -/

/-- Once the edges that walks found are split, walks find none. -/
theorem muxBackEdges_round (hd : d.Sound) (h : (muxBackEdges d.node? d.ids).foldlM splitWithTie d = .ok d') :
    muxBackEdges d'.node? d'.ids = [] := by
  have hjoins : ∀ e ∈ muxBackEdges d.node? d.ids, d.JoinsMuxes e := fun e he => joinsMuxes_of_mem_muxBackEdges hd he
  obtain ⟨hd', hsplits⟩ := (Splits.refl d).foldlM hd (fun e he => (hjoins e he).2) h
  refine hd'.cutsCycles.nil_iff.mpr ?_
  intro es hes
  refine hd.cutsCycles.acyclic es (hes.mono ?_)
  intro e he
  exact hsplits.joinsMuxes_iff.mp he

/-- Breaking the cycles of a draft takes one round at most: any fuel for a round gives what one round of splitting gives, after
which walks find nothing. A draft without cycles of muxes stays as it is. -/
structure OneRound (d : Draft) : Prop where
  round : ∀ fuel, d.breakBackEdges (fuel + 1) = (muxBackEdges d.node? d.ids).foldlM splitWithTie d
  last : ∀ {d' : Draft}, (muxBackEdges d.node? d.ids).foldlM splitWithTie d = .ok d' → muxBackEdges d'.node? d'.ids = []
  untouched : (∀ es, ¬ Cycle d.JoinsMuxes es) → ∀ fuel, d.breakBackEdges fuel = .ok d

theorem breakBackEdges_of_nil (hback : muxBackEdges d.node? d.ids = []) (fuel : Nat) : d.breakBackEdges fuel = .ok d := by
  cases fuel with
  | zero => rfl
  | succ fuel =>
    unfold breakBackEdges
    dsimp only
    rw [hback, List.isEmpty_nil, if_pos rfl]
    rfl

theorem Sound.oneRound (hd : d.Sound) : d.OneRound := by
  refine ⟨?_, muxBackEdges_round hd, ?_⟩
  · intro fuel
    by_cases hback : muxBackEdges d.node? d.ids = []
    · rw [breakBackEdges_of_nil hback, hback]
      rfl
    · unfold breakBackEdges
      dsimp only
      rw [if_neg (by rwa [List.isEmpty_iff])]
      cases hround : (muxBackEdges d.node? d.ids).foldlM Draft.splitWithTie d with
      | error err => rfl
      | ok d' => exact breakBackEdges_of_nil (muxBackEdges_round hd hround) fuel
  · intro hnone
    exact breakBackEdges_of_nil (hd.cutsCycles.nil_iff.mpr hnone)

/-- A draft whose cycles were broken has none. -/
theorem not_cycle_breakCycles {policy : CycleBreak} (hd : d.Sound) (hpolicy : policy ≠ .none)
    (h : d.breakCycles policy = .ok d') : ∀ es, ¬ Cycle d'.JoinsMuxes es := by
  have hd' := hd.breakCycles h
  cases policy with
  | backEdges => exact hd'.cutsCycles.nil_iff.mp (hd.oneRound.last ((hd.oneRound.round _).symm.trans h))
  | allMuxEdges =>
    intro es hes
    obtain ⟨e, he⟩ := hes.exists_edge
    obtain ⟨hjoins, hcut⟩ := (splits_of_allMuxEdges hd h).joinsMuxes_iff.mp he
    exact hcut ((mem_allMuxEdges hd).mpr hjoins)
  | none => exact absurd rfl hpolicy

end Draft

/-! ## Finished graphs -/

section
variable {g : Graph} {f : Fabric} {options : GraphOptions} {e : Edge} {i : NodeId} {es : List Edge}

/-- Both ends of an edge are muxes. -/
def JoinsMuxes (g : Graph) (e : Edge) : Prop := g.Sends e ∧ g.kind? e.src = some .mux ∧ g.kind? e.dst = some .mux

theorem any_isMux_iff : (g.node? i).any (·.isMux) = true ↔ g.kind? i = some .mux := by
  unfold Graph.kind?
  rw [Option.any_eq_true, Option.map_eq_some_iff]
  exact exists_congr fun n => and_congr_right fun _ => Draft.isMux_iff

theorem WellWired.mem_muxEdges (hg : g.WellWired) : e ∈ muxEdges g.node? e.src ↔ g.Sends e ∧ g.kind? e.dst = some .mux := by
  unfold muxEdges Graph.Sends
  rw [List.mem_filter, any_isMux_iff]
  refine and_congr_left fun _ => ?_
  cases hn : g.node? e.src with
  | none => simp
  | some n =>
    rw [Option.map_some, Option.getD_some, Node.outgoing, List.mem_map]
    constructor
    · rintro ⟨⟨port, s⟩, hs, rfl⟩
      exact ⟨n, rfl, Relation.mem_pairs.mp hs⟩
    · rintro ⟨m, hm, hs⟩
      cases hm
      exact ⟨(e.srcPort, ⟨e.dst, e.dstPort⟩), Relation.mem_pairs.mpr hs, by rw [hg.id hn]⟩

/-- What walks find among the muxes of a graph cuts all cycles of muxes. -/
theorem WellWired.cutsCycles (hg : g.WellWired) : CutsCycles g.JoinsMuxes (findMuxBackEdges g) := by
  refine cutsCycles_muxBackEdges ?_ ?_
  · intro i n hn
    exact ⟨hg.id hn, hg.mem_ids.mpr ⟨n, hn⟩⟩
  · intro e
    rw [any_isMux_iff, hg.mem_muxEdges]
    constructor
    · rintro ⟨he, hsrc, hdst⟩
      exact ⟨hsrc, he, hdst⟩
    · rintro ⟨hsrc, he, hdst⟩
      exact ⟨he, hsrc, hdst⟩

/-- A cycle of muxes in the graph was there in the draft. -/
theorem Draft.not_cycle_finish {d : Draft} {contexts : Nat} (hd : d.Sound) (h : d.finish contexts = .ok g)
    (hnone : ∀ es, ¬ Cycle d.JoinsMuxes es) : ∀ es, ¬ Cycle g.JoinsMuxes es := by
  have hmux {i : NodeId} (hi : g.kind? i = some .mux) : ∃ j, d.ids[i]? = some j ∧ d.kind? j = some .mux :=
    (kind?_finish_of_routing hd h (k := .mux) rfl).mp hi
  have hstep : ∀ x, g.JoinsMuxes x → ∃ e, d.JoinsMuxes e ∧ d.ids[x.src]? = some e.src ∧ d.ids[x.dst]? = some e.dst := by
    rintro x ⟨hsends, hsrc, hdst⟩
    obtain ⟨e, he, hnsrc, -, hndst, -⟩ := (sends_finish hd h).mp hsends
    obtain ⟨i, hi, hki⟩ := hmux hsrc
    obtain ⟨j, hj, hkj⟩ := hmux hdst
    obtain rfl : e.src = i := Option.some.inj (hnsrc.symm.trans hi)
    obtain rfl : e.dst = j := Option.some.inj (hndst.symm.trans hj)
    exact ⟨e, ⟨he, hki, hkj⟩, hnsrc, hndst⟩
  rintro es ⟨hne, i, hes⟩
  have hfun {i k k' : NodeId} (hk : d.ids[i]? = some k) (hk' : d.ids[i]? = some k') : k = k' :=
    Option.some.inj (hk.symm.trans hk')
  obtain ⟨k, hk⟩ : ∃ k, d.ids[i]? = some k := by
    cases hes with
    | nil => exact absurd rfl hne
    | cons hx _ =>
      obtain ⟨e, -, hsrc, -⟩ := hstep _ hx
      exact ⟨e.src, hsrc⟩
  obtain ⟨k', xs, hk', hxs, hlen⟩ := hes.transport (R := fun i k => d.ids[i]? = some k) hfun hstep hk
  obtain rfl := hfun hk hk'
  refine hnone xs ⟨?_, k, hxs⟩
  rintro rfl
  exact hne (List.length_eq_zero_iff.mp hlen.symm)

/-- Walks find nothing in a graph that was built with its cycles broken. -/
theorem findMuxBackEdges_build (h : build f options = .ok g) (hpolicy : options.cycleBreak ≠ .none) :
    findMuxBackEdges g = [] := by
  obtain ⟨base, d, hbase, hbreak, -, hfinish⟩ := Draft.build_eq_ok h
  have hb := Draft.sound_unbroken hbase
  refine (wellWired_build h).cutsCycles.nil_iff.mpr ?_
  exact Draft.not_cycle_finish (hb.breakCycles hbreak) hfinish (Draft.not_cycle_breakCycles hb hpolicy hbreak)

/-- The search for cycles of muxes is exact, for the drafts that the steps of building lead to and for finished graphs, and one
round breaks all that it finds. The draft of a fabric is one that steps lead to, and its round succeeds. -/
theorem cycles_found_and_broken (f : Fabric) (options : GraphOptions) :
    (∀ d : Draft, d.Reached → CutsCycles d.JoinsMuxes (muxBackEdges d.node? d.ids) ∧ d.OneRound) ∧
    (∀ base, Draft.unbroken f options = .ok base → base.Reached ∧
      ∃ d, base.breakCycles .backEdges = .ok d ∧ d.Reached ∧ ((∀ es, ¬ Cycle base.JoinsMuxes es) → d = base)) ∧
    ∀ g, build f options = .ok g → CutsCycles g.JoinsMuxes (findMuxBackEdges g) ∧
      (options.cycleBreak ≠ .none → findMuxBackEdges g = []) := by
  refine ⟨?_, ?_, ?_⟩
  · intro d hd
    exact ⟨hd.sound.cutsCycles, hd.sound.oneRound⟩
  · intro base hbase
    have hreached := Draft.reached_unbroken hbase
    obtain ⟨d, hbreak, -⟩ := Draft.exists_inserted hbase .backEdges
    refine ⟨hreached, d, hbreak, hreached.breakCycles hbreak, ?_⟩
    intro hnone
    exact Except.ok.inj (hbreak.symm.trans (hreached.sound.oneRound.untouched hnone _))
  · intro g hg
    exact ⟨(wellWired_build hg).cutsCycles, findMuxBackEdges_build hg⟩

end

end Graph

/-- The four edges of the tangle make cycles, and walks find some of them; none is left when they are broken. -/
theorem tangle_cycles : ∃ base d, Graph.Draft.unbroken .tangle {} = .ok base ∧ base.breakCycles .backEdges = .ok d ∧
    (∃ es, Graph.Cycle base.JoinsMuxes es) ∧ Graph.muxBackEdges d.node? d.ids = [] := by
  obtain ⟨hdraft, hfabric, -⟩ := Graph.cycles_found_and_broken .tangle {}
  obtain ⟨base, hbase, hfour⟩ := exists_ok_of_any (x := Graph.Draft.unbroken .tangle {})
    (p := fun base => !(Graph.muxBackEdges base.node? base.ids).isEmpty) (by decide)
  obtain ⟨hreached, d, hbreak, -⟩ := hfabric base hbase
  obtain ⟨hcuts, hround⟩ := hdraft base hreached
  refine ⟨base, d, hbase, hbreak, ?_, hround.last ((hround.round _).symm.trans hbreak)⟩
  by_contra hnone
  rw [hcuts.nil_iff.mpr (not_exists.mp hnone)] at hfour
  cases hfour

end PlaceRoute
