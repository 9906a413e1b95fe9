import PlaceRoute.Proofs.Session.Bounds

/-!
# Probes on a used solver

An incremental search puts all its probes to one solver: each in a scope of its own, with pins asserted in between
(`Session.resume`). A search that rebuilds puts each to a new one (`Session.restart`). What happened before leaves no trace but
its pins: `replay_leads` says so of one event, whatever the engine answered, `replays_leads` of a run of them. So the next probe
admits the same mappings in both ways (`resume_admits_iff_restart`).
-/

namespace PlaceRoute

open PlaceRoute.Sat (Assignment)

/-! ## Decisions that a check may find -/

namespace Encoder

variable {e : Encoder} {keys : List Key} {P : (Key → Bool) → Prop} {δ : Key → Bool}

/-- Decisions extend to an assignment that the next check may find. -/
def Admits (e : Encoder) (keys : List Key) (δ : Key → Bool) : Prop :=
  ∃ a, e.solver.problem.eval a = true ∧ ∀ k ∈ keys, ∃ l, e.store.bit k = .ok l ∧ l.eval a = δ k

theorem Offers.admits_iff (h : e.Offers keys P) : e.Admits keys δ ↔ P δ := by
  constructor
  · rintro ⟨a, ha, hbits⟩
    exact h.ready.read_eq_iff.mpr hbits ▸ h.sound ha
  · intro hp
    obtain ⟨a, ha, hread⟩ := h.complete hp
    exact ⟨a, ha, h.ready.read_eq_iff.mp hread⟩

end Encoder

/-! ## Events -/

/-- What happens to the solver of an incremental search after its first model. -/
inductive Event where
  /-- A probe for a count in a window, and what the engine answers. -/
  | probe (lower upper : Nat) (answer : Option Assignment)
  /-- The placement of a model is pinned. -/
  | freeze (m : Model)

/-- The decisions that an event pins. -/
def Event.pins (g : Graph) (d : Design) : Event → List (Key × Bool)
  | probe .. => []
  | freeze m => m.placementPins g d

namespace Session
section
variable (p : Problem) (objective : Objective) (families : List Family)

/-- An event on the solver in use. -/
def replay (count : Count) : Event → SessionM Unit
  | .probe lower upper answer => discard (inScope (probe { p with engine := ⟨fun _ => answer⟩ } count lower upper))
  | .freeze m => encode (pin (m.placementPins p.graph p.design))

/-- The next probe of an incremental search up to its call: after the first model, for which the engine answers `first`, and what
happened since then. -/
def resume (first : Option Assignment) (history : List Event) (lower upper : Nat) : SessionM Unit := do
  let count ← rebuild p objective families []
  discard (solveModel { p with engine := ⟨fun _ => first⟩ })
  history.forM (replay p count)
  encode (Encoder.build Solver.push)
  narrow count lower upper

/-- The same probe of a search that rebuilds. -/
def restart (pins : List (Key × Bool)) (lower upper : Nat) : SessionM Unit := do
  let count ← rebuild p objective families pins
  narrow count lower upper

end
end Session

section
variable {p : Problem} {objective : Objective} {families : List Family} {P : (Key → Bool) → Prop} {count : Count}
  {f : (Key → Bool) → Nat} {excused : Prop} {s : Session}

/-- Whatever the engine answers, a probe fails nowhere and what is open stays open. -/
theorem probe_leads_within {keys : List Key} (h : s.encoder.Counts keys P count f) (lower upper : Nat) :
    Leads excused (Session.probe p count lower upper) s fun _ s' => s.encoder.Within s'.encoder := by
  rw [Session.probe_eq]
  refine (narrow_leads h lower upper).bind fun _ s₁ h₁ => ?_
  exact (solveModel_answers h₁.1.ready).mono fun _ s₂ h₂ => h₁.2.trans h₂.1.within

/-- An event leaves no trace but its pins. -/
theorem replay_leads (h : s.encoder.Counts (allKeys p.graph p.design) P count f) (event : Event) :
    Leads excused (Session.replay p count event) s fun _ s' => s'.encoder.Counts (allKeys p.graph p.design)
      (fun δ => P δ ∧ ∀ x ∈ event.pins p.graph p.design, δ x.1 = x.2) count f := by
  cases event with
  | probe lower upper answer =>
    have hprobe : Leads excused (Session.inScope (Session.probe { p with engine := ⟨fun _ => answer⟩ } count lower upper)) s
        fun _ s' => True ∧ s'.encoder.Counts (allKeys p.graph p.design) P count f :=
      inScope_leads h fun s' h' => (probe_leads_within h' lower upper).mono fun _ _ h'' => ⟨trivial, h''⟩
    exact hprobe.bind fun _ s' h' => h'.2.congr fun δ => by simp [Event.pins]
  | freeze m =>
    obtain ⟨solver, hrun, hpinned⟩ := h.pin placementPins_mem_allKeys
    refine (Leads.encode hrun).mono fun _ s' h' => ?_
    rw [h'.2]
    exact hpinned

/-- By induction on the events, each of which adds its pins. -/
theorem replays_leads (h : s.encoder.Counts (allKeys p.graph p.design) P count f) (history : List Event) :
    Leads excused (history.forM (Session.replay p count)) s fun _ s' => s'.encoder.Counts (allKeys p.graph p.design)
      (fun δ => P δ ∧ ∀ x ∈ history.flatMap (·.pins p.graph p.design), δ x.1 = x.2) count f := by
  induction history generalizing P s with
  | nil => exact Leads.pure (h.congr fun δ => by simp)
  | cons event history ih =>
    refine (replay_leads h event).bind fun _ s₁ h₁ => ?_
    refine (ih h₁).mono fun _ s₂ h₂ => h₂.congr fun δ => ?_
    rw [List.flatMap_cons, List.forall_mem_append, and_assoc]

/-! ## The next probe -/

variable (hg : p.graph.WellWired) (hd : p.design.WellWired)
include hg hd

theorem resume_leads (first : Option Assignment) (history : List Event) (lower upper : Nat) :
    Leads excused (Session.resume p objective families first history lower upper) s fun _ s' => ∀ δ,
      s'.encoder.Admits (allKeys p.graph p.design) δ ↔
        Wanted p objective families (history.flatMap (·.pins p.graph p.design)) lower upper δ := by
  refine (rebuild_leads hg hd objective families (by simp)).bind fun count s₁ h₁ => ?_
  have hcounts := h₁.congr (Q := fun δ => ∀ family ∈ families, family.Holds p.graph p.design δ) fun δ => by simp
  have hfirst : Leads excused (discard (Session.solveModel { p with engine := ⟨fun _ => first⟩ })) s₁ fun _ s₂ =>
      s₁.encoder.Rechecked s₂.encoder := (solveModel_answers h₁.offers.ready).bind fun _ _ h₂ => h₂.1
  refine hfirst.bind fun _ s₂ h₂ => ?_
  have hkept := hcounts.conserve (congrArg Store.vars h₂.store) (h₂.conserves hcounts.offers.ready.wellFormed)
  refine (replays_leads hkept history).bind fun _ s₃ h₃ => ?_
  have hpush : (Encoder.build Solver.push).run.run s₃.encoder =
    (.ok (), { s₃.encoder with solver := (Solver.push.run s₃.encoder.solver).2 }) := rfl
  refine (Leads.encode hpush).bind fun _ s₄ h₄ => ?_
  have hpushed : s₄.encoder.Counts (allKeys p.graph p.design) _ count (objective.carried p.graph p.design) := h₄.2 ▸ h₃.push
  refine (narrow_leads hpushed lower upper).mono fun _ s₅ h₅ δ => h₅.1.admits_iff.trans ?_
  rw [Wanted, and_assoc]

theorem restart_leads {pins : List (Key × Bool)} (hpins : ∀ x ∈ pins, x.1 ∈ allKeys p.graph p.design) (lower upper : Nat) :
    Leads excused (Session.restart p objective families pins lower upper) s fun _ s' => ∀ δ,
      s'.encoder.Admits (allKeys p.graph p.design) δ ↔ Wanted p objective families pins lower upper δ := by
  refine (rebuild_leads hg hd objective families hpins).bind fun count s₁ h₁ => ?_
  refine (narrow_leads h₁ lower upper).mono fun _ s₂ h₂ δ => h₂.1.admits_iff.trans ?_
  rw [Wanted, and_assoc]

end

/-- Incremental and rebuilding probes admit the same mappings. Whatever windows were probed before, with whatever answers, and
whatever placements were pinned in between, the next probe in a scope of the same solver admits exactly the decisions that the
same families, pins and window admit on a new one: those that satisfy all of these. -/
theorem resume_admits_iff_restart {f : Fabric} {options : GraphOptions} {p : Problem} {operations : SortedMap String String}
    {ties : List NamedTie} {duplicates : SortedSet String} (hg : Graph.build f options = .ok p.graph)
    (hd : Design.new operations ties duplicates = .ok p.design) (objective : Objective) (families : List Family)
    (first : Option Assignment) (history : List Event) (lower upper : Nat) (s s' : Session) (clock clock' : Nat → Nat) :
    ∃ t t', ((Session.resume p objective families first history lower upper).run.run s).run clock = (.ok (), t) ∧
      ((Session.restart p objective families (history.flatMap (·.pins p.graph p.design)) lower upper).run.run s').run clock' =
        (.ok (), t') ∧
      ∀ δ, (t.encoder.Admits (allKeys p.graph p.design) δ ↔ t'.encoder.Admits (allKeys p.graph p.design) δ) ∧
        (t'.encoder.Admits (allKeys p.graph p.design) δ ↔
          Wanted p objective families (history.flatMap (·.pins p.graph p.design)) lower upper δ) := by
  have hg := Graph.wellWired_build hg
  have hd := Design.wellWired_new hd
  have hpins : ∀ x ∈ history.flatMap (·.pins p.graph p.design), x.1 ∈ allKeys p.graph p.design := by
    intro x hx
    obtain ⟨event, -, hx⟩ := List.mem_flatMap.mp hx
    cases event with
    | probe => exact absurd hx List.not_mem_nil
    | freeze m => exact placementPins_mem_allKeys x hx
  have hresume : Leads False (Session.resume p objective families first history lower upper) s _ :=
    resume_leads hg hd first history lower upper
  have hrestart : Leads False (Session.restart p objective families _ lower upper) s' _ := restart_leads hg hd hpins lower upper
  obtain ⟨⟨⟩, t, hrun, ht⟩ := hresume.exists_ok clock
  obtain ⟨⟨⟩, t', hrun', ht'⟩ := hrestart.exists_ok clock'
  exact ⟨t, t', hrun, hrun', fun δ => ⟨(ht δ).trans (ht' δ).symm, ht' δ⟩⟩

/-- After a wrong refusal, a freeze and a wrong answer, the line is still mapped as before. -/
theorem line_resume_admits : ∃ (p : Problem) (t t' : Session), Graph.build .line {} = .ok p.graph ∧
    Design.new (.ofList [("c", "const"), ("s", "store")]) [⟨"c", "s", 0⟩] ∅ = .ok p.design ∧
    ((Session.resume p ⟨.routing, .bitHack⟩ Family.all none [.probe 0 3 none, .freeze .line, .probe 0 1 (some fun _ => true)]
      0 2).run.run {}).run (fun _ => 0) = (.ok (), t) ∧
    ((Session.restart p ⟨.routing, .bitHack⟩ Family.all (Model.line.placementPins p.graph p.design) 0 2).run.run {}).run
      (fun _ => 0) = (.ok (), t') ∧
    (∀ δ, t.encoder.Admits (allKeys p.graph p.design) δ ↔ t'.encoder.Admits (allKeys p.graph p.design) δ) ∧
    t.encoder.Admits (allKeys p.graph p.design) Model.line.isSet := by
  obtain ⟨g, d, hg, hd⟩ := exists_line
  have hcarried : Objective.carried ⟨.routing, .bitHack⟩ g d Model.line.isSet < 2 := by
    have hless : ((Graph.build .line {}).toOption.any fun g =>
        (Design.new (.ofList [("c", "const"), ("s", "store")]) [⟨"c", "s", 0⟩] ∅).toOption.any fun d =>
          decide (Objective.carried ⟨.routing, .bitHack⟩ g d Model.line.isSet < 2)) = true := by decide +kernel
    rw [hg, hd] at hless
    exact of_decide_eq_true hless
  let history : List Event := [.probe 0 3 none, .freeze .line, .probe 0 1 (some fun _ => true)]
  have hpins : history.flatMap (·.pins g d) = Model.line.placementPins g d := by simp [history, Event.pins]
  obtain ⟨t, t', hrun, hrun', hadmits⟩ := resume_admits_iff_restart (p := ⟨g, d, Sat.exhaustive⟩) hg hd ⟨.routing, .bitHack⟩
    Family.all none history 0 2 {} {} (fun _ => 0) fun _ => 0
  have hline : Wanted ⟨g, d, Sat.exhaustive⟩ ⟨.routing, .bitHack⟩ Family.all (history.flatMap (·.pins g d)) 0 2
      Model.line.isSet := by
    refine ⟨fun family _ => (line_isMapping hg hd).holds family, ?_, Nat.zero_le _, hcarried⟩
    rw [hpins]
    exact pinning_placementPins_iff.mpr fun _ _ _ _ => rfl
  have hadmitted := ((hadmits Model.line.isSet).1.trans (hadmits Model.line.isSet).2).mpr hline
  rw [show history.flatMap (·.pins g d) = _ from hpins] at hrun'
  exact ⟨⟨g, d, Sat.exhaustive⟩, t, t', hg, hd, hrun, hrun', fun δ => (hadmits δ).1, hadmitted⟩

end PlaceRoute
