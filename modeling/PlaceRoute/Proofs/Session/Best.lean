import PlaceRoute.Proofs.Mapping.Accept
import PlaceRoute.Proofs.Session.Converge
import PlaceRoute.Proofs.Session.PlaceAndRoute

/-!
# The model that an optimisation returns

A search replaces its best model by each one that it finds, but takes the lesser score (`Kept.improve`). So whichever families were
asserted, the model returned is the last one found and `upper` the least score of all (`Kept`). That `upper` is also the score of
the model returned needs more: either models are checked, or nets are on with their flows (`Search.Recalls.answered`). Together
this is `optimize_keeps_best`.
-/

namespace PlaceRoute

/-- The model that is kept is the last one found, and the score that is kept the least that a found model has. -/
structure Kept (p : Problem) (objective : Objective) (found : List Model) (best : Model) (upper : Nat) : Prop where
  last : found.getLast? = some best
  le : ∀ m ∈ found, ∃ c, objective.eval p.graph p.design m = .ok c ∧ upper ≤ c
  attained : ∃ m ∈ found, objective.eval p.graph p.design m = .ok upper

section
variable {p : Problem} {o : SearchOptions} {objective : Objective} {families : List Family} {found : List Model} {t : Session}
  {s s' : Search} {best m : Model} {answer : Option Model} {upper c bound : Nat}

theorem Kept.first (hc : objective.eval p.graph p.design m = .ok c) : Kept p objective [m] m c where
  last := rfl
  le := List.forall_mem_singleton.mpr ⟨c, hc, Nat.le_refl c⟩
  attained := ⟨m, List.mem_singleton_self m, hc⟩

theorem Kept.improve (h : Kept p objective found best upper) (hc : objective.eval p.graph p.design m = .ok c) :
    Kept p objective (found ++ [m]) m (min upper c) where
  last := List.getLast?_concat
  le := by
    rw [List.forall_mem_append, List.forall_mem_singleton]
    refine ⟨fun m' hm' => ?_, c, hc, Nat.min_le_right ..⟩
    obtain ⟨c', hc', hle⟩ := h.le m' hm'
    exact ⟨c', hc', (Nat.min_le_left ..).trans hle⟩
  attained := by
    rcases Nat.le_total upper c with hle | hle
    · obtain ⟨m', hm', hupper⟩ := h.attained
      rw [Nat.min_eq_left hle]
      exact ⟨m', List.mem_append_left _ hm', hupper⟩
    · rw [Nat.min_eq_right hle]
      exact ⟨m, List.mem_append_right _ (List.mem_singleton_self m), hc⟩

/-! ## One step -/

/-- What a search keeps of the models it found. -/
structure Search.Recalls (p : Problem) (o : SearchOptions) (objective : Objective) (families : List Family)
    (found : List Model) (s : Search) : Prop where
  kept : Kept p objective found s.best s.upper
  exact_of : o.checkModels = true ∨ .routingResourceUsage ∈ families →
    objective.eval p.graph p.design s.best = .ok s.upper
  pins : ∀ x ∈ s.pins.getD [], x.1 ∈ allKeys p.graph p.design

namespace Search.Recalls

theorem freeze (h : s.Recalls p o objective families found) :
    Search.Recalls p o objective families found { s with pins := some (s.best.placementPins p.graph p.design) } :=
  ⟨h.kept, h.exact_of, placementPins_mem_allKeys⟩

/-- If the check or a family ties nets to their flows, the solver counts at least what the score counts. So a model found by a
probe below the best score is better than all before it. -/
theorem answered (hg : p.graph.WellWired) (hd : p.design.WellWired) (h : s.Recalls p o objective families found)
    (hbound : bound < s.upper) (hanswered : s.Answered p o objective families bound answer s') :
    s'.Recalls p o objective families (found ++ answer.toList) := by
  cases hanswered with
  | refuted count hadmits =>
    rw [Option.toList_none, List.append_nil]
    exact ⟨h.kept, h.exact_of, h.pins⟩
  | @found count m c hadmits hscored =>
    refine ⟨h.kept.improve hscored.eval, fun htied => ?_, h.pins⟩
    have hnets : Family.FlowsHaveNets p.graph p.design m.isSet := by
      rcases htied with hcheck | hmem
      · obtain ⟨solution, hverify⟩ := hscored.verify hcheck
        exact (Model.accepted_of_verify hverify).nets
      · exact Family.NetsAreFlows.flowsHaveNets (hadmits.2.1 _ hmem)
    have hle : c ≤ s.upper := (hadmits.eval_le hg hd hnets hscored.eval).trans (Nat.le_of_lt hbound)
    exact hscored.eval.trans (congrArg _ (Nat.min_eq_right hle).symm)

end Search.Recalls

/-! ## All steps -/

section
variable (hg : p.graph.WellWired) (hd : p.design.WellWired) (hengine : p.engine.Correct)
include hg hd hengine

theorem searchFound_leads (start fuel : Nat) (h : s.Recalls p o objective families found)
    (hloaded : s.Loaded p o objective families t) :
    Leads True (Session.searchFound p o objective families start fuel s found) t fun r _ =>
      r.1.Recalls p o objective families r.2 := by
  refine (searchFound_induction
    (I := fun s found t => s.Recalls p o objective families found ∧ s.Loaded p o objective families t)
    (fun h hpins => ?_) (fun h hbound => ?_) start fuel ⟨h, hloaded⟩).mono fun r _ h => ?_
  · refine (freeze_loaded h.2 hpins).mono fun s' t' h' => ?_
    obtain ⟨rfl, hloaded'⟩ := h'
    exact ⟨h.1.freeze, hloaded'⟩
  · refine (advanceFound_leads hg hd hengine (fun _ _ _ => Or.inl trivial) h.1.pins h.2).mono fun r t' h' => ?_
    exact ⟨h.1.answered hg hd hbound h'.1, h'.2⟩
  · obtain ⟨t', hend⟩ := h
    exact hend.1

theorem minimizeFound_leads : Leads True (Session.minimizeFound p o objective families) t fun r _ => ∀ b, r.1 = .best b →
    Kept p objective r.2 b.model b.upper ∧ (o.checkModels = true ∨ .routingResourceUsage ∈ families →
      objective.eval p.graph p.design b.model = .ok b.upper) := by
  refine Leads.now.bind fun start t₁ _ => ?_
  refine (firstSearch_loaded hg hd hengine fun _ _ _ => Or.inl trivial).bind fun first t₂ h₂ => ?_
  cases first with
  | none => exact Leads.pure nofun
  | some s =>
    obtain ⟨hscored, hloaded, -, hs⟩ := h₂
    have hpins : s.pins.getD [] = [] := by rw [hs]; rfl
    have hrecalls : s.Recalls p o objective families [s.best] :=
      ⟨.first hscored.eval, fun _ => hscored.eval, by simp [hpins]⟩
    refine (searchFound_leads hg hd hengine start s.maxSteps hrecalls hloaded).bind fun r t₃ h₃ => ?_
    refine Leads.pure fun b hb => ?_
    obtain rfl := Optimization.best.inj hb
    exact ⟨h₃.kept, h₃.exact_of⟩

omit hg hd hengine in
theorem optimizeFound_leads {post : Optimization × List Model → Session → Prop}
    (h : ∀ t', Leads True
      (Session.minimizeFound p o objective (if t.asserted.isEmpty then Family.all else t.asserted)) t' post) :
    Leads True (Session.optimizeFound p o objective) t post := by
  unfold Session.optimizeFound
  refine Leads.get.bind fun _ t₁ h₁ => ?_
  obtain ⟨rfl, rfl⟩ := h₁
  dsimp only
  split
  · exact (Leads.tell _).bind fun _ _ _ => h _
  · exact h _

end
end

/-- The best model is kept, and its score if nets are tied to flows. Whichever families were asserted and whatever the engine
finds, an optimisation that finds a model returns the last of the models it found, and the least of their scores. That is the score
of the model returned if models are checked, or if the families that are searched over hold the one on routing resources. -/
theorem optimize_keeps_best {f : Fabric} {options : GraphOptions} {p : Problem} {operations : SortedMap String String}
    {ties : List NamedTie} {duplicates : SortedSet String} (hg : Graph.build f options = .ok p.graph)
    (hd : Design.new operations ties duplicates = .ok p.design) (hengine : p.engine.Correct) (o : SearchOptions)
    (objective : Objective) {s s' : Session} {clock : Nat → Nat} {b : Optimum}
    (hrun : ((Session.optimize p o objective).run.run s).run clock = (.ok (.best b), s')) :
    ∃ found, ((Session.optimizeFound p o objective).run.run s).run clock = (.ok (.best b, found), s') ∧
      Kept p objective found b.model b.upper ∧
      (o.checkModels = true ∨ s.asserted = [] ∨ .routingResourceUsage ∈ s.asserted →
        objective.eval p.graph p.design b.model = .ok b.upper) := by
  obtain ⟨found, hfound⟩ := Session.exists_found_of_run hrun
  have hleads : Leads True (Session.optimizeFound p o objective) s _ := optimizeFound_leads fun _ =>
    minimizeFound_leads (Graph.wellWired_build hg) (Design.wellWired_new hd) hengine
  have hend := hleads.run clock
  rw [hfound] at hend
  obtain ⟨hkept, hexact⟩ := hend b rfl
  refine ⟨found, hfound, hkept, fun htied => hexact (htied.imp_right fun h => ?_)⟩
  split
  · exact Family.mem_all _
  · next hne => exact h.resolve_left fun hnil => hne (by rw [hnil]; rfl)

theorem line_optimize_keeps_best : ∃ (p : Problem) (o : SearchOptions) (b : Optimum) (s : Session) (found : List Model),
    Graph.build .line {} = .ok p.graph ∧
    Design.new (.ofList [("c", "const"), ("s", "store")]) [⟨"c", "s", 0⟩] ∅ = .ok p.design ∧ p.engine.Correct ∧
    ((Session.optimize p o ⟨.routing, .shannon⟩).run.run {}).run (fun _ => 0) = (.ok (.best b), s) ∧
    ((Session.optimizeFound p o ⟨.routing, .shannon⟩).run.run {}).run (fun _ => 0) = (.ok (.best b, found), s) ∧
    Kept p ⟨.routing, .shannon⟩ found b.model b.upper ∧
    Objective.eval ⟨.routing, .shannon⟩ p.graph p.design b.model = .ok b.upper := by
  let o : SearchOptions := {
    incremental := false, cutoff := none, freezePlacement := false, finalCutoff := 0, firstCut := .midpoint,
    maxIterations := some 4, timeBudget := none, checkModels := false }
  obtain ⟨p, b, s, hg, hd, hengine, hrun⟩ := exists_line_best o ⟨.routing, .shannon⟩
  obtain ⟨found, hfound, hkept, hexact⟩ := optimize_keeps_best hg hd hengine o ⟨.routing, .shannon⟩ hrun
  exact ⟨p, o, b, s, found, hg, hd, hengine, hrun, hfound, hkept, hexact (Or.inr (Or.inl rfl))⟩

/-! ## Without the tie -/

/-- A search that probes once, on a new solver, and does not check models. -/
def SearchOptions.once : SearchOptions := {
  incremental := false, cutoff := none, freezePlacement := false, finalCutoff := 0, firstCut := .midpoint,
  maxIterations := some 1, timeBudget := none, checkModels := false }

theorem Search.next_once {s : Search} (hpins : s.pins = none) (hlt : s.floor < s.upper) :
    s.next .once false = if s.iterations = 0 then .probe (s.bound .once) else .stop .iterations := by
  unfold Search.next Search.cutoff
  rw [if_neg (Nat.not_le.mpr hlt), hpins]
  cases s.iterations <;> simp [SearchOptions.once]

section
variable {p : Problem} {objective : Objective} {families : List Family} {m m₁ m₂ : Model} {excused : Prop} {t : Session}
  {c c₁ c₂ bound : Nat} {e : Encoder} {count : Count}

theorem score_once (heval : objective.eval p.graph p.design m = .ok c) :
    Leads excused (Session.score p .once objective m) t fun c' _ => c' = c := Leads.ofResult heval rfl

section
variable (hrebuild : ∀ t, Leads excused (Session.rebuild p objective families []) t fun count' t' =>
  count' = count ∧ t'.encoder = e)
include hrebuild

theorem firstSearch_once (hfirst : ∀ t, t.encoder = e → Leads excused (Session.solveModel p) t fun found _ =>
      ∃ m, found = some m ∧ m.isSet = m₁.isSet)
    (hc₁ : objective.eval p.graph p.design m₁ = .ok c₁) :
    Leads excused (Session.firstSearch p .once objective families) t fun found _ =>
      ∃ s, found = some s ∧ s.pins = none ∧ s.floor = 0 ∧ s.iterations = 0 ∧ s.upper = c₁ := by
  unfold Session.firstSearch
  refine (hrebuild t).bind fun count' t₁ h₁ => ?_
  obtain ⟨rfl, he⟩ := h₁
  refine (hfirst t₁ he).bind fun found t₂ h₂ => ?_
  obtain ⟨m, rfl, hset⟩ := h₂
  refine (score_once ((objective.eval_congr hset).trans hc₁)).bind fun c t₃ h₃ => ?_
  obtain rfl := h₃
  exact (Leads.tell _).bind fun _ _ _ => Leads.pure ⟨_, rfl, rfl, rfl, rfl, rfl⟩

theorem advance_once {s : Search} (hpins : s.pins = none) (hprobe : ∀ t, t.encoder = e →
      Leads excused (Session.probe p count s.floor (bound + 1)) t fun found _ => ∃ m, found = some m ∧ m.isSet = m₂.isSet)
    (hc₂ : objective.eval p.graph p.design m₂ = .ok c₂) :
    Leads excused (Session.advance p .once objective families s bound) t fun s' _ =>
      ∃ m, m.isSet = m₂.isSet ∧ s' = ({ s with count := count }.improve m c₂).record := by
  have hseek : Leads excused (Session.seek p .once objective families s bound) t fun r _ =>
      r.1 = count ∧ ∃ m, r.2 = some m ∧ m.isSet = m₂.isSet := by
    have hnone : s.pins.getD [] = [] := by rw [hpins]; rfl
    unfold Session.seek
    rw [if_neg (by decide), hnone]
    refine (hrebuild t).bind fun count' t₁ h₁ => ?_
    obtain ⟨rfl, he⟩ := h₁
    exact (hprobe t₁ he).bind fun found t₂ h₂ => Leads.pure ⟨rfl, h₂⟩
  unfold Session.advance
  refine hseek.bind fun r t₁ h₁ => ?_
  obtain ⟨count', found⟩ := r
  obtain ⟨rfl, m, rfl, hset⟩ := h₁
  have hsettle : Leads excused (Session.settle p .once objective { s with count := count' } bound (some m)) t₁ fun s' _ =>
      s' = { s with count := count' }.improve m c₂ :=
    (score_once ((objective.eval_congr hset).trans hc₂)).bind fun c t₂ h₂ => Leads.pure (by rw [h₂])
  refine hsettle.bind fun s' t₂ h₂ => ?_
  obtain rfl := h₂
  exact (Leads.tell _).bind fun _ _ _ => Leads.pure ⟨m, hset, rfl⟩

/-- One probe is made. If its model is worse than the best one before, the score stays that of the latter. -/
theorem search_once {s : Search} (hpins : s.pins = none) (hlt : s.floor < s.upper) (hzero : s.iterations = 0)
    (hworse : s.upper ≤ c₂) (hprobe : ∀ t, t.encoder = e →
      Leads excused (Session.probe p count s.floor (s.bound .once + 1)) t fun found _ =>
        ∃ m, found = some m ∧ m.isSet = m₂.isSet)
    (hc₂ : objective.eval p.graph p.design m₂ = .ok c₂) (start fuel : Nat) :
    Leads excused (Session.search p .once objective families start (fuel + 2) s) t fun s' _ =>
      s'.upper = s.upper ∧ s'.best.isSet = m₂.isSet := by
  have hexpired {t : Session} : Leads excused (Session.expired .once start) t fun expired _ => expired = false := Leads.pure rfl
  rw [Session.search]
  refine hexpired.bind fun expired t₁ h₁ => ?_
  obtain rfl := h₁
  rw [Search.next_once hpins hlt, if_pos hzero]
  refine (advance_once hrebuild hpins hprobe hc₂).bind fun s' t₂ h₂ => ?_
  obtain ⟨m, hset, hs'⟩ := h₂
  have hupper : s'.upper = s.upper := by
    rw [hs']
    exact Nat.min_eq_left hworse
  have hfloor : s'.floor = s.floor := by rw [hs']; rfl
  have hpins' : s'.pins = none := by rw [hs']; exact hpins
  have hone : s'.iterations ≠ 0 := by rw [hs']; exact Nat.succ_ne_zero _
  -- The one probe is made.
  rw [Session.search]
  refine hexpired.bind fun expired t₃ h₃ => ?_
  obtain rfl := h₃
  rw [Search.next_once hpins' (by rw [hfloor, hupper]; exact hlt), if_neg hone]
  refine (Leads.tell _).bind fun _ _ _ => Leads.pure ⟨hupper, ?_⟩
  rw [hs']
  exact hset

end

/-- A model that the solver counts less than the score of the one before takes its place, however it scores: some engine finds
these two. -/
theorem exists_engine_worse {g : Graph} {d : Design} (hg : g.WellWired) (hd : d.WellWired)
    (h₁ : Finds (allKeys g d) (fun δ => ∀ f ∈ families, f.Holds g d δ) (some m₁))
    (h₂ : Finds (allKeys g d) (fun δ => ∀ f ∈ families, f.Holds g d δ) (some m₂))
    (hc₁ : objective.eval g d m₁ = .ok c₁) (hc₂ : objective.eval g d m₂ = .ok c₂) (hpos : 0 < c₁) (hworse : c₁ ≤ c₂)
    (habove : (c₁ - 1) / 2 < objective.carried g d m₁.isSet) (hbelow : objective.carried g d m₂.isSet ≤ (c₁ - 1) / 2) :
    ∃ engine : Sat.Engine, engine.Correct ∧ ∀ t : Session,
      families = (if t.asserted.isEmpty then Family.all else t.asserted) →
      Leads False (Session.optimize ⟨g, d, engine⟩ .once objective) t fun result _ =>
        ∃ b, result = .best b ∧ b.upper = c₁ ∧ objective.eval g d b.model = .ok c₂ := by
  obtain ⟨e₁, count, hcounts, hrebuild⟩ := exists_rebuilt hg hd objective families (List.forall_mem_nil _)
  obtain ⟨e₂, hoffers, hwithin, hnarrow⟩ := exists_narrowed hcounts 0 ((c₁ - 1) / 2 + 1)
  obtain ⟨a₁, ha₁, hread₁⟩ := hcounts.offers.complete ⟨h₁.2, by simp⟩
  obtain ⟨a₂, ha₂, hread₂⟩ := hoffers.complete ⟨⟨h₂.2, by simp⟩, Nat.zero_le _, Nat.lt_succ_of_le hbelow⟩
  -- The first model is outside the window of the probe.
  have hnot : ¬ e₂.solver.problem.eval a₁ = true := fun ha => by
    have hcarried := (hoffers.sound (δ := m₁.isSet) ha).2.2
    rw [Encoder.read_of_vars hwithin.vars, hread₁] at hcarried
    omega
  refine ⟨Sat.trying a₁ (Sat.trying a₂ Sat.exhaustive),
    Sat.trying_isCorrect a₁ (Sat.trying_isCorrect a₂ Sat.exhaustive_isCorrect), fun t ht => ?_⟩
  have hfirst (t : Session) (ht : t.encoder = e₁) :
      Leads False (Session.solveModel ⟨g, d, Sat.trying a₁ (Sat.trying a₂ Sat.exhaustive)⟩) t fun found _ =>
        ∃ m, found = some m ∧ m.isSet = m₁.isSet := by
    subst ht
    exact solveModel_finds hcounts.offers.ready (if_pos ha₁) h₁.1 hread₁
  have hprobe (t : Session) (ht : t.encoder = e₁) :
      Leads False (Session.probe ⟨g, d, Sat.trying a₁ (Sat.trying a₂ Sat.exhaustive)⟩ count 0 ((c₁ - 1) / 2 + 1)) t
        fun found _ => ∃ m, found = some m ∧ m.isSet = m₂.isSet := by
    rw [Session.probe_eq]
    refine (hnarrow t ht).bind fun _ t' ht' => ?_
    subst ht'
    exact solveModel_finds hoffers.ready ((if_neg hnot).trans (if_pos ha₂)) h₂.1 hread₂
  refine Leads.optimize ht fun start t₁ _ => ?_
  refine (firstSearch_once (hrebuild _) hfirst hc₁).bind fun found t₂ hs => ?_
  obtain ⟨s, rfl, hpins, hfloor, hzero, hupper⟩ := hs
  have hbound : s.bound .once = (c₁ - 1) / 2 := by
    rw [Search.bound, if_neg (by simp [SearchOptions.once]), hfloor, hupper, Nat.zero_add, Nat.sub_zero]
  have hfuel : s.maxSteps = c₁ + 4294967294 + 2 := by
    rw [Search.maxSteps, hupper]
    rfl
  have hsearch := search_once (hrebuild _) (t := t₂) hpins (by rw [hfloor, hupper]; exact hpos) hzero
    (by rw [hupper]; exact hworse) (by rw [hfloor, hbound]; exact hprobe) hc₂ start (c₁ + 4294967294)
  rw [← hfuel] at hsearch
  exact hsearch.bind fun s' t₃ hs' => Leads.pure ⟨_, rfl, hs'.1.trans hupper, (objective.eval_congr hs'.2).trans hc₂⟩

end

/-- From the source to the sink there are a short way and a long one, which join. -/
def Fabric.detour : Fabric where
  blocks := [{
    location := ⟨0, 0⟩
    instances := [⟨"source", .functionalUnit, [], ["out"], SortedSet.ofList ["const"]⟩,
      ⟨"sink", .functionalUnit, ["a"], [], SortedSet.ofList ["store"]⟩]
    muxes := [⟨"join", ["near", "far"], "out"⟩, ⟨"short", ["in"], "out"⟩, ⟨"long", ["in"], "out"⟩, ⟨"longer", ["in"], "out"⟩]
    operandPorts := [⟨"port", "in", "out", 0⟩] }]
  ties := [⟨⟨⟨0, 0⟩, "source", "out"⟩, ⟨0, 0⟩, "short", "in"⟩, ⟨⟨⟨0, 0⟩, "short", "out"⟩, ⟨0, 0⟩, "join", "near"⟩,
    ⟨⟨⟨0, 0⟩, "source", "out"⟩, ⟨0, 0⟩, "long", "in"⟩, ⟨⟨⟨0, 0⟩, "long", "out"⟩, ⟨0, 0⟩, "longer", "in"⟩,
    ⟨⟨⟨0, 0⟩, "longer", "out"⟩, ⟨0, 0⟩, "join", "far"⟩, ⟨⟨⟨0, 0⟩, "join", "out"⟩, ⟨0, 0⟩, "port", "in"⟩,
    ⟨⟨⟨0, 0⟩, "port", "out"⟩, ⟨0, 0⟩, "sink", "a"⟩]

/-- The value takes the short way, with its net on the two muxes. -/
def Model.shortWay : Model :=
  .ofList ([(.place 0 0, 1), (.place 1 1, 1), (.route 2 0, 1), (.route 3 0, 1)] ++
    [0, 3, 2, 6].map fun n => (.routeTo n 0 ⟨1, 0⟩, 1))

/-- The value takes the long way, and its net is on nowhere. -/
def Model.longWay : Model :=
  .ofList ([(.place 0 0, 1), (.place 1 1, 1)] ++ [0, 4, 5, 2, 6].map fun n => (.routeTo n 0 ⟨1, 0⟩, 1))

/-- Without the family on routing resources, and without the check, the worse of two models may be returned with the score of the
better one. -/
theorem detour_keeps_worse : ∃ (p : Problem) (s s' : Session) (b : Optimum), Graph.build .detour {} = .ok p.graph ∧
    Design.new (.ofList [("c", "const"), ("s", "store")]) [⟨"c", "s", 0⟩] ∅ = .ok p.design ∧ p.engine.Correct ∧
    ((do
      Session.declare p
      Session.assertFamilies p (Family.all.erase .routingResourceUsage)).run.run {}).run (fun _ => 0) = (.ok (), s) ∧
    s.asserted = Family.all.erase .routingResourceUsage ∧
    ((Session.optimize p .once ⟨.mux, .ite⟩).run.run s).run (fun _ => 0) = (.ok (.best b), s') ∧
    b.upper = 2 ∧ Objective.eval ⟨.mux, .ite⟩ p.graph p.design b.model = .ok 3 := by
  let families := Family.all.erase .routingResourceUsage
  have hfacts : ((Graph.build .detour {}).toOption.any fun g =>
      (Design.new (.ofList [("c", "const"), ("s", "store")]) [⟨"c", "s", 0⟩] ∅).toOption.any fun d => decide (
        Finds (allKeys g d) (fun δ => ∀ f ∈ families, f.Holds g d δ) (some .shortWay) ∧
        Finds (allKeys g d) (fun δ => ∀ f ∈ families, f.Holds g d δ) (some .longWay) ∧
        Objective.eval ⟨.mux, .ite⟩ g d .shortWay = .ok 2 ∧ Objective.eval ⟨.mux, .ite⟩ g d .longWay = .ok 3 ∧
        Objective.carried ⟨.mux, .ite⟩ g d Model.shortWay.isSet = 2 ∧
        Objective.carried ⟨.mux, .ite⟩ g d Model.longWay.isSet = 0)) = true := by decide +kernel
  obtain ⟨g, hg, hfacts⟩ := exists_ok_of_any hfacts
  obtain ⟨d, hd, hfacts⟩ := exists_ok_of_any hfacts
  obtain ⟨h₁, h₂, hc₁, hc₂, hcarried₁, hcarried₂⟩ := of_decide_eq_true hfacts
  have hgw := Graph.wellWired_build hg
  have hdw := Design.wellWired_new hd
  obtain ⟨engine, hengine, hworse⟩ := exists_engine_worse hgw hdw h₁ h₂ hc₁ hc₂ (by decide) (by decide)
    (by rw [hcarried₁]; decide) (by rw [hcarried₂])
  let p : Problem := ⟨g, d, engine⟩
  have hasserts : Leads False (do
      Session.declare p
      Session.assertFamilies p families) {} fun _ s => s.asserted = families := by
    obtain ⟨e₁, hdeclare, hmodels⟩ := Encoder.declare_models [] (allKeys_nodup hgw hdw) Encoder.models_new
    obtain ⟨e₂, hgenerate, -⟩ := generate_models (p := p) hgw hdw families hmodels
    refine (Leads.build_keeps hdeclare).bind fun _ s hs => ?_
    rw [← hs.2.1] at hgenerate
    refine (Session.assertFamilies_leads hgenerate).mono fun _ s' hs' => ?_
    rw [hs'.2, hs.2.2]
    rfl
  obtain ⟨⟨⟩, s, hs, hasserted⟩ := hasserts.exists_ok fun _ => 0
  obtain ⟨result, s', hrun, b, rfl, hupper, hscore⟩ := (hworse s (by rw [hasserted]; rfl)).exists_ok fun _ => 0
  exact ⟨p, s, s', b, hg, hd, hengine, hs, hasserted, hrun, hupper, hscore⟩

end PlaceRoute
