import PlaceRoute.Proofs.Mapping.Accept
import PlaceRoute.Proofs.Session.PlaceAndRoute

/-!
# The first count of units

Before any solving a session counts, for each opcode, the operations that need it and the units that support it. The verdict of
this count is right about the numbers, and it never refuses a design that could be mapped (`attest_exact`): where it finds too few
units, no model passes the check, no decisions satisfy all families, and the solver finds nothing (`Attested`).
-/

namespace PlaceRoute

open PlaceRoute.Sat (Engine)

variable {g : Graph} {d : Design} {p : Problem} {opcode : String}

/-- A model that passes the check has a unit for each operation. -/
theorem Model.demand_le_supply {m : Model} {solution : Solution} (hd : d.WellWired) (h : m.verify g d = .ok solution)
    (opcode : String) : d.demand opcode ≤ g.supply opcode := by
  have haccepted := accepted_of_verify h
  exact PlaceRoute.demand_le_supply hd haccepted.placed haccepted.exclusive haccepted.supported opcode

namespace Session

/-- The count ends at once with its verdict; it asks no clock and changes the log only. -/
theorem run_attest (p : Problem) (s : Session) : ∃ log,
    (attest p).run.run s = .done (.ok (Feasibility.of p.graph p.design), { s with log }) := by
  unfold attest
  dsimp only
  cases Feasibility.of p.graph p.design with
  | feasible => exact ⟨s.log, rfl⟩
  | infeasible opcode demand supply => exact ⟨_, rfl⟩

/-- Where no decisions satisfy all families, the solver finds none. -/
theorem solveAll_finds_none (hg : p.graph.WellWired) (hd : p.design.WellWired) (hengine : p.engine.Correct)
    (hnone : ∀ δ, ¬ Family.AllHold p.graph p.design δ) {t : Session} (ht : t.encoder = .new) (clock : Nat → Nat) :
    ∃ t', ((solveAll p).run.run t).run clock = (.ok none, t') := by
  have hleads : Leads False (solveAll p) t _ := solveAll_leads hg hd hengine ht
  obtain ⟨found, t', hrun, hfound⟩ := hleads.exists_ok clock
  cases found with
  | none => exact ⟨t', hrun⟩
  | some m => exact absurd hfound.2 (hnone _)

/-- The search finds none either. -/
theorem optimizeAll_finds_none {settings : OptimizeSettings} (hg : p.graph.WellWired) (hd : p.design.WellWired)
    (hengine : p.engine.Correct) (hbudget : settings.timeBudget = none)
    (hnone : ∀ δ, ¬ Family.AllHold p.graph p.design δ) {t : Session} (ht : t.asserted = []) (clock : Nat → Nat) :
    ∃ result t', ((optimizeAll p settings).run.run t).run clock = (.ok (none, result), t') := by
  have hverify (m : Model) (hm : m.IsMapping p.graph p.design) :
      False ∨ ∃ solution, m.verify p.graph p.design = .ok solution := absurd hm.holds (hnone _)
  have hleads : Leads False (optimizeAll p settings) t _ := optimizeAll_leads hg hd hengine hbudget hverify ht
  obtain ⟨⟨found, result⟩, t', hrun, hfound⟩ := hleads.exists_ok clock
  cases found with
  | none => exact ⟨result, t', hrun⟩
  | some m => exact absurd hfound.2 (hnone _)

/-- What a verdict of the first count stands for. -/
structure Attested (p : Problem) (verdict : Feasibility) : Prop where
  /-- Too few units are found exactly if more operations need some opcode than units support it. -/
  infeasible_iff : verdict ≠ .feasible ↔ ∃ opcode, p.graph.supply opcode < p.design.demand opcode
  counts : ∀ {opcode : String} {demand supply : Nat}, verdict = .infeasible opcode demand supply →
    demand = p.design.demand opcode ∧ supply = p.graph.supply opcode ∧ supply < demand
  refused : verdict ≠ .feasible → ∀ (m : Model) (solution : Solution), m.verify p.graph p.design ≠ .ok solution
  unsatisfiable : verdict ≠ .feasible → ∀ δ, ¬ Family.AllHold p.graph p.design δ
  /-- The solver, if it is asked all families, finds no model. -/
  solver : verdict ≠ .feasible → p.engine.Correct → ∀ (t : Session) (clock : Nat → Nat), t.encoder = .new →
    ∃ t', ((solveAll p).run.run t).run clock = (.ok none, t')
  search : verdict ≠ .feasible → p.engine.Correct → ∀ (settings : OptimizeSettings) (t : Session) (clock : Nat → Nat),
    settings.timeBudget = none → t.asserted = [] →
      ∃ result t', ((optimizeAll p settings).run.run t).run clock = (.ok (none, result), t')

theorem attested (hg : p.graph.WellWired) (hd : p.design.WellWired) : Attested p (Feasibility.of p.graph p.design) := by
  have hiff : Feasibility.of p.graph p.design ≠ .feasible ↔ ∃ opcode, p.graph.supply opcode < p.design.demand opcode := by
    rw [← PlaceRoute.infeasible_iff]
    cases Feasibility.of p.graph p.design with
    | feasible => simp
    | infeasible opcode demand supply => simp
  have hnone (h : Feasibility.of p.graph p.design ≠ .feasible) (δ : Key → Bool) : ¬ Family.AllHold p.graph p.design δ := by
    intro hall
    obtain ⟨opcode, hlt⟩ := hiff.mp h
    have hle := PlaceRoute.demand_le_supply hd (hall .opPlacement) (hall .peExclusivity) (hall .peLegality) opcode
    omega
  refine ⟨hiff, of_infeasible, ?_, hnone, ?_, ?_⟩
  · intro h m solution hok
    obtain ⟨opcode, hlt⟩ := hiff.mp h
    have hle := Model.demand_le_supply hd hok opcode
    omega
  · intro h hengine t clock ht
    exact solveAll_finds_none hg hd hengine (hnone h) ht clock
  · intro h hengine settings t clock hbudget ht
    exact optimizeAll_finds_none hg hd hengine hbudget (hnone h) ht clock

end Session

/-- Whatever fabric the graph was built from, and whatever design there is: the first count of a session ends with the verdict
that a count of operations and units gives, and skips the solver only where it would find nothing. -/
theorem attest_exact {f : Fabric} {options : GraphOptions} {operations : SortedMap String String} {ties : List NamedTie}
    {duplicates : SortedSet String} (hg : Graph.build f options = .ok p.graph)
    (hd : Design.new operations ties duplicates = .ok p.design) (s : Session) (clock : Nat → Nat) :
    ∃ verdict log, ((Session.attest p).run.run s).run clock = (.ok verdict, { s with log }) ∧
      Session.Attested p verdict := by
  obtain ⟨log, hrun⟩ := Session.run_attest p s
  refine ⟨_, log, ?_, Session.attested (Graph.wellWired_build hg) (Design.wellWired_new hd)⟩
  rw [hrun]
  rfl

/-- One unit supports constants, but two operations need it, one of which may be duplicated. -/
theorem line_attest_exact : ∃ p : Problem, Graph.build .line {} = .ok p.graph ∧
    Design.new (.ofList [("c", "const"), ("k", "const")]) [] (.ofList ["const"]) = .ok p.design ∧
    ∃ s', ((Session.attest p).run.run { log := .empty }).run (fun _ => 0) = (.ok (.infeasible "const" 2 1), s') ∧
      ∀ δ, ¬ Family.AllHold p.graph p.design δ := by
  have hcount : ((Graph.build .line {}).toOption.any fun g =>
      (Design.new (.ofList [("c", "const"), ("k", "const")]) [] (.ofList ["const"])).toOption.any fun d =>
        decide (Feasibility.of g d = .infeasible "const" 2 1)) = true := by decide +kernel
  obtain ⟨g, hg⟩ : ∃ g, Graph.build .line {} = .ok g := ⟨_, rfl⟩
  obtain ⟨d, hd⟩ : ∃ d, Design.new (.ofList [("c", "const"), ("k", "const")]) [] (.ofList ["const"]) = .ok d := ⟨_, rfl⟩
  rw [hg, hd] at hcount
  have hcount : Feasibility.of g d = .infeasible "const" 2 1 := of_decide_eq_true hcount
  obtain ⟨verdict, log, hrun, hattested⟩ :=
    attest_exact (p := ⟨g, d, Sat.exhaustive⟩) hg hd { log := .empty } (fun _ => 0)
  have hverdict : verdict = .infeasible "const" 2 1 := by
    obtain ⟨log', hdone⟩ := Session.run_attest ⟨g, d, Sat.exhaustive⟩ { log := .empty }
    rw [hdone, hcount] at hrun
    cases hrun
    rfl
  subst hverdict
  exact ⟨⟨g, d, Sat.exhaustive⟩, hg, hd, _, hrun, hattested.unsatisfiable nofun⟩

end PlaceRoute
