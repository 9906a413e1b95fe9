import PlaceRoute.Proofs.Graph.Build
import PlaceRoute.Proofs.Mapping.Faithful
import PlaceRoute.Proofs.Mapping.Ports
import PlaceRoute.Proofs.Session.Advance

/-!
# The bounds of an optimisation are true

A search that starts from a first model keeps what it knows in every step (`advance_leads`, `search_leads`), so the bounds that
`Session.optimize` reports hold for all mappings (`optimize_sound`): the upper one is the score of the model, no mapping scores
below the lower one, and none with the placement of the model below the frozen one.
-/

namespace PlaceRoute

open PlaceRoute.Sat (Literal Assignment)

section
variable {p : Problem} {o : SearchOptions} {objective : Objective} {families : List Family} {excused : Prop} {t : Session}
  {s : Search} {m : Model} {bound : Nat}

/-! ## The search -/

section
variable (hg : p.graph.WellWired) (hd : p.design.WellWired) (hall : ∀ f : Family, f ∈ families)
include hg hd hall

/-- A model that a probe found is a mapping, so the solver counts at least its score. -/
theorem Search.Knows.answered {answer : Option Model} {s' : Search} (h : s.Knows p objective) (hbound : bound < s.upper)
    (hanswered : s.Answered p o objective families bound answer s') : s'.Knows p objective ∧ s.Probed bound s' := by
  cases hanswered with
  | refuted count hadmits => exact ⟨((h.with_count count).refute hg hd hadmits).record, .refuted count⟩
  | @found count m c hadmits hscored =>
    have hm : m.IsMapping p.graph p.design := ⟨hadmits.1, (Family.forall_mem_iff_allHold hall).mp hadmits.2.1⟩
    have hle := hadmits.eval_le hg hd (Family.NetsAreFlows.flowsHaveNets (hm.holds .routingResourceUsage)) hscored.eval
    have himproves := (h.with_count count).improve hm hadmits.2.2.1 (hle.trans (Nat.le_of_lt hbound)) hscored.eval
    exact ⟨himproves.record, .found count m hle⟩

variable (hengine : p.engine.Correct)
  (hverify : ∀ m : Model, m.IsMapping p.graph p.design → excused ∨ ∃ solution, m.verify p.graph p.design = .ok solution)
include hengine hverify

theorem advanceFound_knows (hknows : s.Knows p objective) (hloaded : s.Loaded p o objective families t)
    (hbound : bound < s.upper) : Leads excused (Session.advanceFound p o objective families s bound) t fun r t' =>
      r.1.Knows p objective ∧ r.1.Loaded p o objective families t' ∧ s.Probed bound r.1 := by
  refine (advanceFound_leads hg hd hengine (fun m hdeclared hf => hverify m ⟨hdeclared,
    (Family.forall_mem_iff_allHold hall).mp hf⟩) hknows.pins_mem_allKeys hloaded).mono fun r t' h => ?_
  obtain ⟨hknows', hprobed⟩ := hknows.answered hg hd hall hbound h.1
  exact ⟨hknows', h.2, hprobed⟩

theorem advance_leads (hknows : s.Knows p objective) (hloaded : s.Loaded p o objective families t) (hbound : bound < s.upper) :
    Leads excused (Session.advance p o objective families s bound) t fun s' t' =>
      s'.Knows p objective ∧ s'.Loaded p o objective families t' ∧ s.Probed bound s' := by
  rw [← Session.map_fst_advanceFound]
  exact Leads.map (advanceFound_knows hg hd hall hengine hverify hknows hloaded hbound)

theorem search_leads (start fuel : Nat) (hknows : s.Knows p objective) (hloaded : s.Loaded p o objective families t) :
    Leads excused (Session.search p o objective families start fuel s) t fun s' _ => s'.Knows p objective := by
  rw [← Session.map_fst_searchFound p o objective families start fuel s []]
  refine Leads.map ((searchFound_induction (I := fun s _ t => s.Knows p objective ∧ s.Loaded p o objective families t)
    (fun h hpins => ?_) (fun h hbound => ?_) start fuel ⟨hknows, hloaded⟩).mono fun r _ h => ?_)
  · refine (freeze_loaded h.2 hpins).mono fun s' t' h' => ?_
    obtain ⟨rfl, hloaded'⟩ := h'
    exact ⟨h.1.freeze hpins, hloaded'⟩
  · exact (advanceFound_knows hg hd hall hengine hverify h.1 h.2 hbound).mono fun _ _ h' => ⟨h'.1, h'.2.1⟩
  · obtain ⟨t', hend⟩ := h
    exact hend.1

theorem firstSearch_leads : Leads excused (Session.firstSearch p o objective families) t fun found t' =>
    match found with
    | none => ∀ δ, ¬ Family.AllHold p.graph p.design δ
    | some s => s.Knows p objective ∧ s.Loaded p o objective families t' ∧
      s = { best := s.best, upper := s.upper, count := s.count, history := [(0, s.upper)] } := by
  have hiff {δ : Key → Bool} := Family.forall_mem_iff_allHold (g := p.graph) (d := p.design) (δ := δ) hall
  refine (firstSearch_loaded hg hd hengine fun m hdeclared hf => hverify m ⟨hdeclared, hiff.mp hf⟩).mono fun found t' h => ?_
  cases found with
  | none => exact fun δ hδ => h δ (hiff.mpr hδ)
  | some s =>
    obtain ⟨hscored, hloaded, ⟨hdeclared, hfamilies⟩, hs⟩ := h
    refine ⟨?_, hloaded, hs⟩
    rw [hs]
    exact Search.Knows.first ⟨hdeclared, hiff.mp hfamilies⟩ hscored.eval s.count

end

/-! ## The result -/

/-- What the result of a search says about the scores of mappings. -/
structure Optimum.Sound (p : Problem) (objective : Objective) (b : Optimum) : Prop where
  mapping : b.model.IsMapping p.graph p.design
  score : objective.eval p.graph p.design b.model = .ok b.upper
  lower_le_upper : b.lower ≤ b.upper
  lower_le : ∀ {m : Model} {c : Nat}, Family.AllHold p.graph p.design m.isSet →
    objective.eval p.graph p.design m = .ok c → b.lower ≤ c
  upper_le : b.provenOptimal = true → ∀ {m : Model} {c : Nat}, Family.AllHold p.graph p.design m.isSet →
    objective.eval p.graph p.design m = .ok c → b.upper ≤ c
  frozenLower_le : ∀ {floor : Nat}, b.frozenLower = some floor → ∀ {m : Model} {c : Nat},
    Family.AllHold p.graph p.design m.isSet →
    (∀ u ∈ p.graph.units, ∀ op ∈ p.design.operations, m.isSet (.place u op.id) = b.model.isSet (.place u op.id)) →
    objective.eval p.graph p.design m = .ok c → floor ≤ c

/-- A search finds nothing only if there is no mapping. -/
def Optimization.Sound (p : Problem) (objective : Objective) : Optimization → Prop
  | .unsatisfiable => ∀ δ, ¬ Family.AllHold p.graph p.design δ
  | .best b => b.Sound p objective

theorem Search.Knows.sound (h : s.Knows p objective) : s.optimum.Sound p objective where
  mapping := h.mapping
  score := h.upper
  lower_le_upper := h.lower h.mapping.holds h.upper
  lower_le := h.lower
  upper_le hproven _ _ hm hc := Nat.le_trans (of_decide_eq_true hproven) (h.lower hm hc)
  frozenLower_le hfloor m c hm hplace hc := by
    obtain ⟨pins, hpins, rfl⟩ := Option.map_eq_some_iff.mp hfloor
    refine h.floor hm ?_ hc
    rw [hpins, h.pins hpins]
    exact pinning_placementPins_iff.mpr hplace

/-- An optimisation over all families is a search from a first model. -/
theorem optimize_leads_of {post : Optimization → Prop} (hasserted : t.asserted = [] ∨ ∀ f : Family, f ∈ t.asserted)
    (hsearch : ∀ families : List Family, (∀ f : Family, f ∈ families) → ∀ (start : Nat) (t' : Session),
      Leads excused (do
        match ← Session.firstSearch p o objective families with
        | none => pure Optimization.unsatisfiable
        | some s => return .best (← Session.search p o objective families start s.maxSteps s).optimum) t'
        fun result _ => post result) :
    Leads excused (Session.optimize p o objective) t fun result _ => post result := by
  have hall : ∀ f : Family, f ∈ if t.asserted.isEmpty then Family.all else t.asserted := by
    intro f
    split
    · exact Family.mem_all f
    · next hne => exact (hasserted.resolve_left fun h => hne (by rw [h]; rfl)) f
  exact Leads.optimize rfl fun start t' _ => hsearch _ hall start t'

theorem optimize_leads (hg : p.graph.WellWired) (hd : p.design.WellWired) (hengine : p.engine.Correct)
    (hverify : ∀ m : Model, m.IsMapping p.graph p.design →
      excused ∨ ∃ solution, m.verify p.graph p.design = .ok solution)
    (hasserted : t.asserted = [] ∨ ∀ f : Family, f ∈ t.asserted) :
    Leads excused (Session.optimize p o objective) t fun result _ => result.Sound p objective := by
  refine optimize_leads_of hasserted fun families hall start t₁ => ?_
  refine (firstSearch_leads hg hd hall hengine hverify).bind fun found t₂ h₂ => ?_
  cases found with
  | none => exact Leads.pure h₂
  | some s =>
    refine (search_leads hg hd hall hengine hverify start s.maxSteps h₂.1 h₂.2.1).bind fun s' _ h₃ => ?_
    exact Leads.pure h₃.sound

end

/-! ## All families -/

theorem line_portsFeedUnits {g : Graph} (hg : Graph.build .line {} = .ok g) : g.PortsFeedUnits := by
  have hports : (Graph.build .line {}).toOption.any (fun g => decide g.PortsFeedUnits) = true := rfl
  rw [hg] at hports
  exact of_decide_eq_true hports

/-- The value runs from the source through the port. -/
def Model.line : Model :=
  .ofList [(.place 0 0, 1), (.place 1 1, 1), (.route 0 0, 1), (.routeTo 0 0 ⟨1, 0⟩, 1), (.route 2 0, 1), (.routeTo 2 0 ⟨1, 0⟩, 1)]

theorem line_isMapping {g : Graph} {d : Design} (hg : Graph.build .line {} = .ok g)
    (hd : Design.new (.ofList [("c", "const"), ("s", "store")]) [⟨"c", "s", 0⟩] ∅ = .ok d) : Model.line.IsMapping g d := by
  have hmapping : ((Graph.build .line {}).toOption.any fun g =>
      (Design.new (.ofList [("c", "const"), ("s", "store")]) [⟨"c", "s", 0⟩] ∅).toOption.any fun d =>
        decide (Model.line.IsMapping g d)) = true := by decide +kernel
  rw [hg, hd] at hmapping
  exact of_decide_eq_true hmapping

/-- Every mapping of the line passes the check. -/
theorem line_verify {g : Graph} {d : Design} (hg : Graph.build .line {} = .ok g)
    (hd : Design.new (.ofList [("c", "const"), ("s", "store")]) [⟨"c", "s", 0⟩] ∅ = .ok d) {m : Model}
    (hm : m.IsMapping g d) : ∃ solution, m.verify g d = .ok solution := by
  have hgw := Graph.wellWired_build hg
  have hdw := Design.wellWired_new hd
  exact (Model.verify_ok_iff hm.holds hdw hgw).mpr
    (Model.arrives_of_portsFeedUnits hdw hgw hm.holds (line_portsFeedUnits hg))

/-- Bounds are true. Whatever the engine finds at each probe and whatever the clock says, the result of an optimisation over all
families is sound: its upper bound is the score of its mapping, its bounds hold for every mapping that has a score, and it finds
no mapping only if there is none. -/
theorem optimize_sound {f : Fabric} {options : GraphOptions} {p : Problem} {operations : SortedMap String String}
    {ties : List NamedTie} {duplicates : SortedSet String} (hg : Graph.build f options = .ok p.graph)
    (hd : Design.new operations ties duplicates = .ok p.design) (hengine : p.engine.Correct) (o : SearchOptions)
    (objective : Objective) {s s' : Session} (hasserted : s.asserted = [] ∨ ∀ family : Family, family ∈ s.asserted)
    {clock : Nat → Nat} {result : Optimization}
    (hrun : ((Session.optimize p o objective).run.run s).run clock = (.ok result, s')) : result.Sound p objective := by
  have hleads : Leads True (Session.optimize p o objective) s fun result _ => result.Sound p objective :=
    optimize_leads (Graph.wellWired_build hg) (Design.wellWired_new hd) hengine (fun _ _ => Or.inl trivial) hasserted
  have hresult := hleads.run clock
  rw [hrun] at hresult
  exact hresult

theorem line_optimize_sound : ∃ (p : Problem) (o : SearchOptions) (b : Optimum) (s : Session),
    Graph.build .line {} = .ok p.graph ∧
    Design.new (.ofList [("c", "const"), ("s", "store")]) [⟨"c", "s", 0⟩] ∅ = .ok p.design ∧ p.engine.Correct ∧
    ((Session.optimize p o ⟨.routing, .bitHack⟩).run.run {}).run (fun _ => 0) = (.ok (.best b), s) ∧
    b.Sound p ⟨.routing, .bitHack⟩ := by
  obtain ⟨g, d, hg, hd⟩ := exists_line
  have hengine := Sat.exhaustive_isCorrect
  have hgw := Graph.wellWired_build hg
  have hdw := Design.wellWired_new hd
  let p : Problem := ⟨g, d, Sat.exhaustive⟩
  let o : SearchOptions := {
    incremental := true, cutoff := none, freezePlacement := true, finalCutoff := 0, firstCut := .midpoint,
    maxIterations := some 3, timeBudget := some 5, checkModels := true }
  have hverify (m : Model) (hm : m.IsMapping g d) : False ∨ ∃ solution, m.verify g d = .ok solution := Or.inr <|
    (Model.verify_ok_iff hm.holds hdw hgw).mpr (Model.arrives_of_portsFeedUnits hdw hgw hm.holds (line_portsFeedUnits hg))
  have hleads : Leads False (Session.optimize p o ⟨.routing, .bitHack⟩) {} fun result _ =>
      result.Sound p ⟨.routing, .bitHack⟩ := optimize_leads hgw hdw hengine hverify (Or.inl rfl)
  obtain ⟨result, s, hrun, -⟩ := hleads.exists_ok fun _ => 0
  have hsound := optimize_sound (p := p) hg hd hengine o ⟨.routing, .bitHack⟩ (Or.inl rfl) hrun
  cases result with
  | unsatisfiable => exact absurd (line_isMapping hg hd).holds (hsound _)
  | best b => exact ⟨p, o, b, s, hg, hd, hengine, hrun, hsound⟩

end PlaceRoute
