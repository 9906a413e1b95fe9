import PlaceRoute.Proofs.Mapping.Models
import PlaceRoute.Proofs.Mapping.Prune
import PlaceRoute.Proofs.Mapping.Faithful

/-!
# Stray flows

A flow that is connected to no source counts for the solver, and not for the score. `Model.filter` drops decisions from a model.
With the decisions on its paths alone a mapping is still one (`Model.onPaths_allHold`) and has the same paths
(`Model.Traced.tracePaths_filter`), so both counts have the same least value (`counts_meet`).
-/

namespace PlaceRoute

/-- Other successors make the same walk if a step of the walk stays the only one. -/
theorem Walks.of_next {next next' : NodeId → List NodeId} {targets nodes : List NodeId} {n : NodeId}
    (h : Walks next targets n nodes) (hnext : ∀ x y, y ∈ nodes → next x = [y] → next' x = [y]) :
    Walks next' targets n nodes := by
  induction h with
  | stop hn => exact .stop hn
  | @step n m nodes hn hm h ih =>
    refine .step hn (hnext n m (List.mem_cons_of_mem _ h.mem_start) hm) (ih ?_)
    intro x y hy
    exact hnext x y (List.mem_cons_of_mem _ hy)

namespace Model

variable {g : Graph} {d : Design} {m : Model} {paths : List RoutedPath} {v : Value} {t : Terminal}

/-- The model without the decisions that a test rejects. -/
def filter (m : Model) (keep : Key → Bool) : Model := ⟨m.values.filter fun k _ => keep k⟩

theorem isSet_filter {keep : Key → Bool} {k : Key} : (m.filter keep).isSet k = (m.isSet k && keep k) := by
  unfold filter isSet get?
  rw [Std.TreeMap.getElem?_filter']
  cases m.values[k]? with
  | none => rfl
  | some x => cases hk : keep k <;> simp

/-- What a mapping keeps on its paths is all that is on them. -/
theorem isSet_filter_onPaths (hd : d.WellWired) (hg : g.WellWired) (hnets : Family.NetsAreFlows g d m.isSet)
    (htr : m.Traced g d paths) : (m.filter (m.onPaths paths)).isSet = m.onPaths paths := by
  have hsub {k : Key} (hk : m.onPaths paths k = true) : m.isSet k = true := by
    cases k with
    | place u op => exact hk
    | route n i =>
      obtain ⟨p, hp, hpi, -⟩ := onPaths_route.mp hk
      obtain ⟨v, hv, hpv, -⟩ := htr.walks p hp
      obtain rfl : v.id = i := hpv.symm.trans hpi
      exact htr.route_of_onPaths hd hg hnets.flowsHaveNets hv hk
    | routeTo n i t =>
      obtain ⟨p, hp, rfl, rfl, hn⟩ := onPaths_routeTo.mp hk
      exact htr.isSet hp n hn
  funext k
  rw [isSet_filter]
  cases hk : m.onPaths paths k with
  | true => rw [hsub hk]; rfl
  | false => exact Bool.and_false _

namespace Traced

variable (htr : m.Traced g d paths) {m' : Model} (hm' : m'.isSet = m.onPaths paths)
include htr hm'

omit htr in
theorem hosts_of_onPaths : m'.hosts g = m.hosts g := by
  funext op
  unfold hosts
  rw [hm']
  rfl

omit htr in
theorem targets_of_onPaths : m'.targets g t = m.targets g t := by
  unfold targets
  rw [hosts_of_onPaths hm']

/-- A walk along a flow is a walk along its paths. -/
theorem walks_of_onPaths {u : NodeId} {nodes : List NodeId} (hv : v ∈ d.values) (ht : t ∈ v.dsts) (hu : u ∈ m.hosts g v.src)
    (hset : m.isSet (.routeTo u v.id t) = true) (hwalk : Walks (m.nextNodes g v.id t) (m.targets g t).toList u nodes) :
    Walks (m'.nextNodes g v.id t) (m.targets g t).toList u nodes := by
  obtain ⟨p, hp, hpv, rfl, hmem⟩ := htr.starts v hv t ht u hu hset
  -- From `u` on, the path through `u` is this walk.
  have hnodes : ∀ y ∈ nodes, m.onPaths paths (.routeTo y v.id p.terminal) = true := by
    obtain ⟨v', -, hpv', -, w, -, -, hpath⟩ := htr.walks p hp
    rw [← hpv', hpv] at hpath
    obtain ⟨rest, hrest, hsuffix, -⟩ := hpath.of_mem hmem
    obtain rfl := hwalk.unique hrest
    intro y hy
    exact onPaths_routeTo.mpr ⟨p, hp, hpv, rfl, hsuffix.mem hy⟩
  refine hwalk.of_next fun x y hy hnext => ?_
  have hfilter : m'.nextNodes g v.id p.terminal x =
      (m.nextNodes g v.id p.terminal x).filter fun y => m.onPaths paths (.routeTo y v.id p.terminal) := by
    unfold nextNodes
    rw [List.filter_filter, hm']
    refine List.filter_congr fun z _ => ?_
    cases hz : m.onPaths paths (.routeTo z v.id p.terminal) with
    | false => rfl
    | true => rw [htr.routeTo_of_onPaths hz]; rfl
  rw [hfilter, hnext]
  simp [hnodes y hy]

/-- A model that decides as the paths of another has the same paths. -/
theorem traceFlow_of_onPaths (hv : v ∈ d.values) (ht : t ∈ v.dsts) {flow : List RoutedPath}
    (h : m.traceFlow g d v t = .ok flow) : m'.traceFlow g d v t = .ok flow := by
  obtain ⟨hmap, hends⟩ := traceFlow_eq_ok_iff.mp h
  have hsources : (m'.hosts g v.src).filter (fun u => m'.isSet (.routeTo u v.id t)) =
      (m.hosts g v.src).filter fun u => m.isSet (.routeTo u v.id t) := by
    rw [hosts_of_onPaths hm', hm']
    refine List.filter_congr fun u hu => ?_
    obtain ⟨hunit, hplace⟩ := mem_hosts.mp hu
    rw [Bool.eq_iff_iff]
    exact ⟨htr.routeTo_of_onPaths, htr.onPaths_of_host hunit hplace hv ht⟩
  rw [traceFlow_eq_ok_iff, hsources, targets_of_onPaths hm']
  refine ⟨mapM_imp (fun u hu p hp => ?_) hmap, hends⟩
  obtain ⟨hu, hset⟩ := List.mem_filter.mp hu
  obtain ⟨nodes, hnodes, hp⟩ := bind_eq_ok hp
  obtain ⟨hwalk, hlength⟩ := walk_eq_ok_iff.mp hnodes
  rw [walk_eq_ok_iff.mpr ⟨htr.walks_of_onPaths hm' hv ht hu hset hwalk, hlength⟩]
  exact hp

omit htr in
theorem tracePaths_of_onPaths (h : m.tracePaths g d = .ok paths) : m'.tracePaths g d = .ok paths := by
  have htr := traced h
  unfold tracePaths at h ⊢
  obtain ⟨byValue, hvalues, h⟩ := bind_eq_ok h
  rw [mapM_imp (fun v hv flows hflows => ?_) hvalues]
  · exact h
  · obtain ⟨byFlow, hbyFlow, hflows⟩ := bind_eq_ok hflows
    rw [mapM_imp (fun t ht flow hflow => htr.traceFlow_of_onPaths hm' hv ht hflow) hbyFlow]
    exact hflows

end Traced
end Model

/-- The two counts have the same least value. In a mapping whose flows can be followed, the score is at most what the solver counts,
for every objective. Some of its decisions, with all placements, are a mapping with the same paths, in which both counts are that
score. -/
theorem counts_meet {f : Fabric} {options : GraphOptions} {g : Graph} {d : Design} {operations : SortedMap String String}
    {ties : List NamedTie} {duplicates : SortedSet String} (hg : Graph.build f options = .ok g)
    (hd : Design.new operations ties duplicates = .ok d) {m : Model} (h : Family.AllHold g d m.isSet)
    {paths : List RoutedPath} (hpaths : m.tracePaths g d = .ok paths) :
    ∃ m' : Model, Family.AllHold g d m'.isSet ∧ (∀ u op, m'.isSet (.place u op) = m.isSet (.place u op)) ∧
      (∀ k, m'.isSet k = true → m.isSet k = true) ∧ m'.tracePaths g d = .ok paths ∧
      ∀ o : Objective, ∃ c, o.eval g d m = .ok c ∧ c ≤ o.rawCount g d m ∧ o.eval g d m' = .ok c ∧ o.rawCount g d m' = c := by
  have hg := Graph.wellWired_build hg
  have hd := Design.wellWired_new hd
  have htr := Model.traced hpaths
  have hnets : Family.NetsAreFlows g d m.isSet := h .routingResourceUsage
  have hkept := Model.isSet_filter_onPaths hd hg hnets htr
  have hpaths' := Model.Traced.tracePaths_of_onPaths hkept hpaths
  refine ⟨m.filter (m.onPaths paths), ?_, fun u op => ?_, fun k hk => ?_, hpaths', fun o => ?_⟩
  · rw [hkept]
    exact Model.onPaths_allHold hd hg h htr
  · rw [hkept]
    rfl
  · rw [Model.isSet_filter] at hk
    exact (Bool.and_eq_true_iff.mp hk).1
  · have heval {m : Model} (hpaths : m.tracePaths g d = .ok paths) : o.eval g d m = .ok (o.score g paths) := by
      unfold Objective.eval
      rw [hpaths]
      rfl
    refine ⟨o.score g paths, heval hpaths, Objective.eval_le_carried hd hg hnets.flowsHaveNets (heval hpaths), heval hpaths', ?_⟩
    show o.carried g d (m.filter (m.onPaths paths)).isSet = _
    rw [hkept, Objective.carried_onPaths hg htr]

/-- A source that drives a sink, beside three muxes that drive each other. -/
def Fabric.eddy : Fabric where
  blocks := [{
    location := ⟨0, 0⟩
    instances := [⟨"source", .functionalUnit, [], ["out"], SortedSet.ofList ["const"]⟩,
      ⟨"sink", .functionalUnit, ["a"], [], SortedSet.ofList ["store"]⟩]
    muxes := [⟨"m0", ["in"], "out"⟩, ⟨"m1", ["in"], "out"⟩, ⟨"m2", ["in"], "out"⟩]
    operandPorts := [⟨"port", "in", "out", 0⟩] }]
  ties := [⟨⟨⟨0, 0⟩, "source", "out"⟩, ⟨0, 0⟩, "port", "in"⟩, ⟨⟨⟨0, 0⟩, "port", "out"⟩, ⟨0, 0⟩, "sink", "a"⟩,
    ⟨⟨⟨0, 0⟩, "m0", "out"⟩, ⟨0, 0⟩, "m1", "in"⟩, ⟨⟨⟨0, 0⟩, "m1", "out"⟩, ⟨0, 0⟩, "m2", "in"⟩,
    ⟨⟨⟨0, 0⟩, "m2", "out"⟩, ⟨0, 0⟩, "m0", "in"⟩]

/-- The value runs from the source through the port, and a second time in the ring. -/
def Model.eddy : Model :=
  .ofList ((.place 0 0, 1) :: (.place 1 1, 1) :: [0, 5, 2, 3, 4].flatMap fun n => [(.route n 0, 1), (.routeTo n 0 ⟨1, 0⟩, 1)])

/-- The ring is counted by the solver, and left out it is a mapping still. -/
theorem eddy_counts_meet : ∃ (g : Graph) (d : Design) (m : Model), Graph.build .eddy { cycleBreak := .none } = .ok g ∧
    Design.new (.ofList [("c", "const"), ("s", "store")]) [⟨"c", "s", 0⟩] ∅ = .ok d ∧ Family.AllHold g d Model.eddy.isSet ∧
    Model.eddy.tracePaths g d = .ok [⟨0, ⟨1, 0⟩, [0, 5]⟩] ∧ Objective.rawCount ⟨.routing, .ite⟩ g d .eddy = 4 ∧
    Family.AllHold g d m.isSet ∧ Objective.eval ⟨.routing, .ite⟩ g d m = .ok 1 ∧ Objective.rawCount ⟨.routing, .ite⟩ g d m = 1 := by
  obtain ⟨g, d, hg, hd⟩ : ∃ g d, Graph.build .eddy { cycleBreak := .none } = .ok g ∧
    Design.new (.ofList [("c", "const"), ("s", "store")]) [⟨"c", "s", 0⟩] ∅ = .ok d := ⟨_, _, rfl, rfl⟩
  have heddy : ((Graph.build .eddy { cycleBreak := .none }).toOption.any fun g =>
      (Design.new (.ofList [("c", "const"), ("s", "store")]) [⟨"c", "s", 0⟩] ∅).toOption.any fun d =>
        decide (Family.AllHold g d Model.eddy.isSet ∧ (Model.eddy.tracePaths g d).toOption = some [⟨0, ⟨1, 0⟩, [0, 5]⟩] ∧
          Objective.rawCount ⟨.routing, .ite⟩ g d .eddy = 4 ∧
          (Objective.eval ⟨.routing, .ite⟩ g d .eddy).toOption = some 1)) = true := by
    decide +kernel
  rw [hg, hd] at heddy
  obtain ⟨hall, hpaths, hraw, heval⟩ := of_decide_eq_true heddy
  have hpaths := eq_ok_of_toOption hpaths
  obtain ⟨m, hm, -, -, -, hcounts⟩ := counts_meet hg hd hall hpaths
  obtain ⟨c, hc, -, hscore, hcount⟩ := hcounts ⟨.routing, .ite⟩
  obtain rfl : c = 1 := Except.ok.inj (hc.symm.trans (eq_ok_of_toOption heval))
  exact ⟨g, d, m, hg, hd, hall, hpaths, hraw, hm, hscore, hcount⟩

end PlaceRoute
