import PlaceRoute.Fabric.Validation
import PlaceRoute.Proofs.Mapping.Supply
import PlaceRoute.Proofs.Session.Bounds
import PlaceRoute.Session.PlaceAndRoute

/-!
# Whole runs

What a run returns is right: a solution exactly if there is a mapping (`Session.placeAndRoute_leads`). But a run fails if the model
that the engine found is refused by the check. `Session.Reliable` says that this never happens. It holds if all flows of all
mappings arrive (`Session.reliable_of_arrives`), as they do where operand ports feed units only, and in no other case, since some
engine finds any given mapping (`Session.exists_engine`, `Session.arrives_of_reliable`).
-/

namespace PlaceRoute

open PlaceRoute.Sat (Engine Assignment)

/-- The engine that answers with a given assignment wherever it can, and as another engine elsewhere. -/
def Sat.trying (a : Assignment) (engine : Engine) : Engine :=
  ⟨fun f => if f.eval a = true then some a else engine.solve f⟩

theorem Sat.trying_isCorrect (a : Assignment) {engine : Engine} (h : engine.Correct) : (trying a engine).Correct where
  sound {f b} hb := by
    unfold trying at hb
    dsimp only at hb
    split at hb
    · next ha =>
      obtain rfl := Option.some.inj hb
      exact ha
    · exact h.sound hb
  complete {f} hnone := by
    unfold trying at hnone
    dsimp only at hnone
    split at hnone
    · cases hnone
    · exact h.complete hnone

namespace Session

/-- Whatever the engine, the clock and the settings without a time budget, a run ends with a result, which holds a solution exactly
if there is a mapping. -/
def Reliable (g : Graph) (d : Design) : Prop :=
  ∀ (engine : Engine) (settings : OptimizeSettings) (log : Log) (clock : Nat → Nat),
    engine.Correct → settings.timeBudget = none →
      ∃ outcome s, ((placeAndRoute ⟨g, d, engine⟩ settings).run.run { log := log }).run clock = (.ok outcome, s) ∧
        (outcome.solution.isSome = true ↔ ∃ δ, Family.AllHold g d δ)

section
variable {g : Graph} {d : Design} {p : Problem} {settings : OptimizeSettings} {excused : Prop} {t : Session} {m : Model}

theorem attest_leads : Leads excused (attest p) t fun verdict t' =>
    verdict = Feasibility.of p.graph p.design ∧ t'.encoder = t.encoder ∧ t'.asserted = t.asserted := by
  unfold attest
  dsimp only
  split
  · exact Leads.pure ⟨rfl, rfl, rfl⟩
  · exact (Leads.modify _).bind fun _ t₁ h₁ => by
      subst h₁
      exact Leads.pure ⟨rfl, rfl, rfl⟩

/-! ## Without the search -/

theorem assertFamilies_leads {families : List Family} {e : Encoder}
    (h : (generate p families).run.run t.encoder = (.ok (), e)) :
    Leads excused (assertFamilies p families) t fun _ t' =>
      t'.encoder = e ∧ t'.asserted = addFamilies t.asserted families := by
  refine Leads.now.bind fun start t₁ h₁ => ?_
  subst h₁
  refine (Leads.attempt h).bind fun r t₂ h₂ => ?_
  obtain ⟨rfl, rfl⟩ := h₂
  refine Leads.now.bind fun stop t₃ h₃ => ?_
  subst h₃
  refine (Leads.modify _).bind fun _ t₄ h₄ => ?_
  subst h₄
  exact Leads.ofResult rfl ⟨rfl, rfl⟩

/-- All engines are asked the same. -/
theorem exists_encoder (hg : g.WellWired) (hd : d.WellWired) :
    ∃ e : Encoder, e.Models (allKeys g d) (Family.AllHold g d) ∧
      ∀ (engine : Engine) (t : Session), t.encoder = .new → ∀ post,
        (∀ t', t'.encoder = e → Leads excused (solveModel ⟨g, d, engine⟩) t' post) →
        Leads excused (solveAll ⟨g, d, engine⟩) t post := by
  obtain ⟨e₁, hdeclare, h₁⟩ := Encoder.declare_models [] (allKeys_nodup hg hd) Encoder.models_new
  obtain ⟨e₂, hgenerate, h₂⟩ := generate_models (p := ⟨g, d, Sat.exhaustive⟩) hg hd Family.all h₁
  refine ⟨e₂, h₂.congr fun δ => ?_, fun engine t ht post hrest => ?_⟩
  · rw [true_and]
    exact Family.forall_mem_iff_allHold Family.mem_all
  · rw [← ht] at hdeclare
    refine (Leads.build hdeclare).bind fun _ t₁ ht₁ => ?_
    refine (assertFamilies_leads (t := t₁) ?_).bind fun _ t₂ ht₂ => hrest t₂ ht₂.1
    rw [ht₁.2]
    exact hgenerate

theorem solveAll_leads (hg : p.graph.WellWired) (hd : p.design.WellWired) (hengine : p.engine.Correct)
    (ht : t.encoder = .new) : Leads excused (solveAll p) t fun found _ =>
      Finds (allKeys p.graph p.design) (Family.AllHold p.graph p.design) found := by
  obtain ⟨e, hmodels, hrun⟩ := exists_encoder hg hd
  refine hrun p.engine t ht _ fun t' ht' => ?_
  rw [← ht'] at hmodels
  exact (solveModel_leads hengine hmodels.offers).mono fun _ _ h => h.2

/-! ## With the search -/

section
variable (hg : p.graph.WellWired) (hd : p.design.WellWired) (hengine : p.engine.Correct) (hbudget : settings.timeBudget = none)
  (hverify : ∀ m : Model, m.IsMapping p.graph p.design → excused ∨ ∃ solution, m.verify p.graph p.design = .ok solution)
include hg hd hengine hbudget hverify

theorem optimizeAll_leads (ht : t.asserted = []) : Leads excused (optimizeAll p settings) t fun r _ =>
    Finds (allKeys p.graph p.design) (Family.AllHold p.graph p.design) r.1 := by
  obtain ⟨o, ho⟩ : ∃ o, settings.searchOptions? = some o := by
    unfold OptimizeSettings.searchOptions?
    rw [hbudget]
    exact ⟨_, rfl⟩
  unfold optimizeAll
  rw [ho]
  refine (optimize_leads hg hd hengine hverify (Or.inl ht)).bind fun result t₂ hresult => ?_
  cases result with
  | unsatisfiable => exact Leads.pure hresult
  | best b => exact Leads.pure ⟨hresult.mapping.declared, hresult.mapping.holds⟩

/-! ## Both ways -/

/-- A result holds a solution exactly if there is a mapping. -/
theorem placeAndRoute_leads (hnew : t.encoder = .new) (hasserted : t.asserted = []) :
    Leads excused (placeAndRoute p settings) t fun outcome _ =>
      (outcome.solution.isSome = true ↔ ∃ δ, Family.AllHold p.graph p.design δ) := by
  have hcheck {verdict : Feasibility} {found : Option Model} (optimization : Option Optimization) {t' : Session}
      (hfound : Finds (allKeys p.graph p.design) (Family.AllHold p.graph p.design) found) :
      Leads excused (do
        let solution ← found.mapM (confirm p)
        pure (⟨verdict, solution, optimization⟩ : Outcome)) t' fun outcome _ =>
          (outcome.solution.isSome = true ↔ ∃ δ, Family.AllHold p.graph p.design δ) := by
    cases found with
    | none => exact Leads.pure ⟨nofun, fun ⟨δ, hδ⟩ => absurd hδ (hfound δ)⟩
    | some m =>
      have hsolution : Leads excused ((some m).mapM (confirm p)) t' fun solution _ => solution.isSome = true :=
        (confirm_leads (hverify m ⟨hfound.1, hfound.2⟩)).bind fun _ _ _ => Leads.pure rfl
      refine hsolution.bind fun solution t₃ hsome => ?_
      exact Leads.pure ⟨fun _ => ⟨_, hfound.2⟩, fun _ => hsome⟩
  unfold placeAndRoute
  refine attest_leads.bind fun verdict t₁ h₁ => ?_
  obtain ⟨hverdict, hencoder, hsame⟩ := h₁
  dsimp only
  split
  · next opcode demand supply =>
    exact hcheck none fun δ => not_allHold_of_infeasible hd hverdict.symm
  · split
    · refine (optimizeAll_leads hg hd hengine hbudget hverify (hsame.trans hasserted)).bind fun r t₂ h₂ => ?_
      exact hcheck (some r.2) h₂
    · refine (solveAll_leads hg hd hengine (hencoder.trans hnew)).bind fun found t₂ h₂ => ?_
      exact hcheck none h₂

end

theorem reliable_of_arrives (hg : g.WellWired) (hd : d.WellWired) (h : ∀ m : Model, m.IsMapping g d → m.Arrives g d) :
    Reliable g d := by
  intro engine settings log clock hengine hbudget
  have hverify (m : Model) (hm : m.IsMapping g d) : False ∨ ∃ solution, m.verify g d = .ok solution :=
    Or.inr ((Model.verify_ok_iff hm.holds hd hg).mpr (h m hm))
  have hleads := placeAndRoute_leads (p := ⟨g, d, engine⟩) (t := { log := log }) hg hd hengine hbudget hverify rfl rfl
  exact hleads.exists_ok clock

/-! ## Every mapping may be found -/

/-- Some engine finds a given mapping. -/
theorem exists_engine (hg : g.WellWired) (hd : d.WellWired) (hm : m.IsMapping g d) : ∃ engine : Engine, engine.Correct ∧
    ∀ t : Session, t.encoder = .new → Leads True (solveAll ⟨g, d, engine⟩) t fun found _ =>
      ∃ m', found = some m' ∧ m'.isSet = m.isSet := by
  obtain ⟨e, hmodels, hrun⟩ := exists_encoder hg hd
  obtain ⟨a, ha, hread⟩ := hmodels.offers.complete hm.holds
  refine ⟨Sat.trying a Sat.exhaustive, Sat.trying_isCorrect a Sat.exhaustive_isCorrect, fun t ht => hrun _ t ht _ fun t' ht' => ?_⟩
  subst ht'
  exact solveModel_finds hmodels.ready (if_pos ha) hm.declared hread

theorem arrives_of_reliable (hg : g.WellWired) (hd : d.WellWired) (h : Reliable g d) (hm : m.IsMapping g d) :
    m.Arrives g d := by
  obtain ⟨engine, hengine, hfind⟩ := exists_engine hg hd hm
  have hleads : Leads True (placeAndRoute ⟨g, d, engine⟩ {}) { log := .empty } fun _ _ =>
      ∃ m' : Model, m'.isSet = m.isSet ∧ ∃ solution, m'.verify g d = .ok solution := by
    unfold placeAndRoute
    refine attest_leads.bind fun verdict t₁ h₁ => ?_
    obtain ⟨hverdict, hencoder, -⟩ := h₁
    dsimp only
    split
    · exact absurd hm.holds (not_allHold_of_infeasible hd hverdict.symm)
    · refine (hfind t₁ hencoder).bind fun found t₂ hfound => ?_
      obtain ⟨m', rfl, hset⟩ := hfound
      have hsolution : Leads True ((some m').mapM (confirm ⟨g, d, engine⟩)) t₂ fun _ _ =>
          ∃ solution, m'.verify g d = .ok solution :=
        (confirm_leads (Or.inl trivial)).bind fun solution _ hverify => Leads.pure ⟨solution, hverify.1⟩
      exact hsolution.bind fun _ _ hok => Leads.pure ⟨m', hset, hok⟩
  obtain ⟨outcome, s, hrun, -⟩ := h engine {} .empty (fun _ => 0) hengine rfl
  have hend := hleads.run fun _ => 0
  rw [hrun] at hend
  obtain ⟨m', hset, hok⟩ := hend
  exact ((Model.verify_ok_iff (hset ▸ hm.holds) hd hg).mp hok).congr hset

end
end Session

/-! ## Which runs may fail -/

/-- Whatever a run returns is right: a solution exactly if there is a mapping. That every run returns something means that all
flows of all mappings arrive, which the check finds out for each mapping; they do where operand ports feed units only. -/
theorem placeAndRoute_reliable {f : Fabric} {options : GraphOptions} {g : Graph} {d : Design}
    {operations : SortedMap String String} {ties : List NamedTie} {duplicates : SortedSet String}
    (hg : Graph.build f options = .ok g) (hd : Design.new operations ties duplicates = .ok d) :
    (Session.Reliable g d ↔ ∀ m : Model, m.IsMapping g d → m.Arrives g d) ∧
    (∀ m : Model, m.IsMapping g d → ((∃ solution, m.verify g d = .ok solution) ↔ m.Arrives g d)) ∧
    (g.PortsFeedUnits → Session.Reliable g d) ∧
    ∀ (engine : Engine) (settings : OptimizeSettings) (log : Log) (clock : Nat → Nat) (outcome : Outcome) (s : Session),
      engine.Correct → settings.timeBudget = none →
      ((Session.placeAndRoute ⟨g, d, engine⟩ settings).run.run { log := log }).run clock = (.ok outcome, s) →
      (outcome.solution.isSome = true ↔ ∃ δ, Family.AllHold g d δ) := by
  have hg := Graph.wellWired_build hg
  have hd := Design.wellWired_new hd
  refine ⟨⟨fun h m hm => Session.arrives_of_reliable hg hd h hm, Session.reliable_of_arrives hg hd⟩,
    fun m hm => Model.verify_ok_iff hm.holds hd hg, fun hports => ?_, ?_⟩
  · exact Session.reliable_of_arrives hg hd fun m hm => Model.arrives_of_portsFeedUnits hd hg hm.holds hports
  · intro engine settings log clock outcome s hengine hbudget hrun
    have hleads : Leads True (Session.placeAndRoute ⟨g, d, engine⟩ settings) { log := log } _ :=
      Session.placeAndRoute_leads hg hd hengine hbudget (fun _ _ => Or.inl trivial) rfl rfl
    have hend := hleads.run clock
    rw [hrun] at hend
    exact hend

theorem line_placeAndRoute_reliable : ∃ (g : Graph) (d : Design), Graph.build .line {} = .ok g ∧
    Design.new (.ofList [("c", "const"), ("s", "store")]) [⟨"c", "s", 0⟩] ∅ = .ok d ∧ Session.Reliable g d ∧
    ∃ δ, Family.AllHold g d δ := by
  obtain ⟨g, d, hg, hd⟩ := exists_line
  exact ⟨g, d, hg, hd, (placeAndRoute_reliable hg hd).2.2.1 (line_portsFeedUnits hg), _, (line_isMapping hg hd).holds⟩

/-- The source drives a port of no unit, and the port of the sink feeds itself through two muxes. -/
def Fabric.feedback : Fabric where
  blocks := [{
    location := ⟨0, 0⟩
    instances := [⟨"source", .functionalUnit, [], ["out"], SortedSet.ofList ["const"]⟩,
      ⟨"sink", .functionalUnit, ["a"], [], SortedSet.ofList ["store"]⟩]
    muxes := [⟨"up", ["in"], "out"⟩, ⟨"down", ["in"], "out"⟩]
    operandPorts := [⟨"port", "in", "out", 0⟩, ⟨"blind", "in", "out", 0⟩] }]
  ties := [⟨⟨⟨0, 0⟩, "source", "out"⟩, ⟨0, 0⟩, "blind", "in"⟩, ⟨⟨⟨0, 0⟩, "port", "out"⟩, ⟨0, 0⟩, "sink", "a"⟩,
    ⟨⟨⟨0, 0⟩, "port", "out"⟩, ⟨0, 0⟩, "up", "in"⟩, ⟨⟨⟨0, 0⟩, "up", "out"⟩, ⟨0, 0⟩, "down", "in"⟩,
    ⟨⟨⟨0, 0⟩, "down", "out"⟩, ⟨0, 0⟩, "port", "in"⟩]

/-- The net is on every node that the source or the sink's port reaches. -/
def Model.feedback : Model :=
  .ofList ([(.place 0 0, 1), (.place 1 1, 1)] ++ [0, 2, 3, 4, 5].flatMap fun n => [(.route n 0, 1), (.routeTo n 0 ⟨1, 0⟩, 1)])

/-- No fault is found in the fabric, but the check refuses a mapping onto it, so some runs fail. -/
theorem feedback_not_reliable : ∃ (g : Graph) (d : Design), Fabric.feedback.validate = .ok () ∧
    Graph.build .feedback {} = .ok g ∧ Design.new (.ofList [("c", "const"), ("s", "store")]) [⟨"c", "s", 0⟩] ∅ = .ok d ∧
    Model.feedback.IsMapping g d ∧ (∀ solution, Model.feedback.verify g d ≠ .ok solution) ∧ ¬ Session.Reliable g d := by
  have hrefused : ((Graph.build .feedback {}).toOption.any fun g =>
      (Design.new (.ofList [("c", "const"), ("s", "store")]) [⟨"c", "s", 0⟩] ∅).toOption.any fun d =>
        decide (Model.feedback.IsMapping g d) && !(Model.feedback.verify g d).isOk) = true := by decide +kernel
  obtain ⟨g, hg⟩ : ∃ g, Graph.build .feedback {} = .ok g := ⟨_, rfl⟩
  obtain ⟨d, hd⟩ : ∃ d, Design.new (.ofList [("c", "const"), ("s", "store")]) [⟨"c", "s", 0⟩] ∅ = .ok d := ⟨_, rfl⟩
  rw [hg, hd] at hrefused
  obtain ⟨hmapping, hnot⟩ := Bool.and_eq_true_iff.mp hrefused
  have hmapping := of_decide_eq_true hmapping
  have hnot (solution : Solution) : Model.feedback.verify g d ≠ .ok solution := by
    intro h
    rw [h] at hnot
    cases hnot
  have hgw := Graph.wellWired_build hg
  have hdw := Design.wellWired_new hd
  refine ⟨g, d, rfl, hg, hd, hmapping, hnot, fun h => ?_⟩
  obtain ⟨solution, hok⟩ := (Model.verify_ok_iff hmapping.holds hdw hgw).mpr (Session.arrives_of_reliable hgw hdw h hmapping)
  exact hnot solution hok

end PlaceRoute
