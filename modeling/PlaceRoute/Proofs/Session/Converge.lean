import Mathlib.Data.List.Chain
import PlaceRoute.Proofs.Mapping.Count
import PlaceRoute.Proofs.Session.Bounds
import PlaceRoute.Proofs.Session.Calls

/-!
# Searches that converge

A search without cutoff and budgets goes on until its bounds meet. `Search.Narrowing first s` is what its steps keep after a first
model that scores `first` (`Narrowing.probed`): bounds only ever move towards each other, and each step halves the gap between
them, except for a first step that asks for a model just better than the first. So a run ends with equal bounds, after at most
`log2 first + 2` steps (`search_converges`, `optimize_converges`).
-/

namespace PlaceRoute

/-- No limit stops the search before its bounds meet. -/
structure SearchOptions.Unlimited (o : SearchOptions) : Prop where
  cutoff : o.cutoff = none
  maxIterations : o.maxIterations = none
  timeBudget : o.timeBudget = none

/-- Later bounds lie within earlier ones and nearer to each other. -/
def Narrows (before after : Nat × Nat) : Prop :=
  before.1 ≤ after.1 ∧ after.2 ≤ before.2 ∧ after.2 - after.1 < before.2 - before.1

namespace Search

variable {o : SearchOptions} {s s' : Search} {bound first : Nat}

/-! ## One step -/

theorem next_of_unlimited (ho : o.Unlimited) (hpins : s.pins = none) :
    s.next o false = if s.upper ≤ s.floor then .finish else .probe (s.bound o) := by
  unfold next Search.cutoff
  simp [hpins, ho.cutoff, ho.maxIterations]

theorem floor_le_bound (h : s.floor < s.upper) : s.floor ≤ s.bound o := by
  unfold Search.bound
  split <;> omega

theorem bound_lt_upper (h : s.floor < s.upper) : s.bound o < s.upper := by
  unfold Search.bound
  split <;> omega

namespace Probed

theorem narrows (h : s.Probed bound s') (hfloor : s.floor ≤ bound) (hupper : bound < s.upper) :
    Narrows (s.floor, s.upper) (s'.floor, s'.upper) := by
  cases h with
  | @found count m score hscore =>
    have hmin : min s.upper score ≤ bound := (Nat.min_le_right ..).trans hscore
    refine ⟨Nat.le_refl _, Nat.min_le_left .., ?_⟩
    show min s.upper score - s.floor < s.upper - s.floor
    omega
  | refuted count =>
    refine ⟨Nat.le_succ_of_le hfloor, Nat.le_refl _, ?_⟩
    show s.upper - (bound + 1) < s.upper - s.floor
    omega

/-- Whatever the answer, a probe at the middle halves the gap. -/
theorem gap_le_half (h : s.Probed (s.floor + (s.upper - 1 - s.floor) / 2) s') :
    s'.upper - s'.floor ≤ (s.upper - s.floor) / 2 := by
  cases h with
  | @found count m score hscore =>
    show min s.upper score - s.floor ≤ (s.upper - s.floor) / 2
    omega
  | refuted count =>
    show s.upper - (s.floor + (s.upper - 1 - s.floor) / 2 + 1) ≤ (s.upper - s.floor) / 2
    omega

end Probed

/-! ## All steps -/

/-- The bounds that a search went through since its first model, which scored `first`. -/
structure Narrowing (first : Nat) (s : Search) : Prop where
  pins : s.pins = none
  lower : s.lower = s.floor
  head : s.history.head? = some (0, first)
  last : s.history.getLast? = some (s.floor, s.upper)
  ordered : ∀ x ∈ s.history, x.1 ≤ x.2
  narrows : s.history.IsChain Narrows
  length : s.history.length = s.iterations + 1
  /-- Each step has brought the bounds nearer to each other. -/
  gap : s.iterations + (s.upper - s.floor) ≤ first
  /-- Each step but the first has taken a binary digit off the gap. -/
  digits : s.iterations - 1 + bitLength (s.upper - s.floor) ≤ bitLength first

theorem Narrowing.start {m : Model} {count : Count} :
    Narrowing first { best := m, upper := first, count := count, history := [(0, first)] } where
  pins := rfl
  lower := rfl
  head := rfl
  last := rfl
  ordered := by simp
  narrows := .singleton _
  length := rfl
  gap := by simp
  digits := by simp

theorem Narrowing.probed (h : s.Narrowing first) (hlt : s.floor < s.upper) (hprobed : s.Probed (s.bound o) s')
    (hle : s'.floor ≤ s'.upper) : s'.Narrowing first := by
  have hnarrows := hprobed.narrows (floor_le_bound hlt) (bound_lt_upper hlt)
  have hiterations : s'.iterations = s.iterations + 1 := by cases hprobed <;> rfl
  have hhistory : s'.history = s.history ++ [(s'.floor, s'.upper)] := by cases hprobed <;> rfl
  have hpins : s'.pins = none := by cases hprobed <;> exact h.pins
  constructor
  case pins => exact hpins
  case lower =>
    cases hprobed with
    | found => exact h.lower
    | refuted => exact if_neg (by simp [h.pins])
  case head => rw [hhistory, List.head?_append, h.head]; rfl
  case last => rw [hhistory, List.getLast?_concat]
  case ordered =>
    rw [hhistory, List.forall_mem_append, List.forall_mem_singleton]
    exact ⟨h.ordered, hle⟩
  case narrows =>
    rw [hhistory]
    refine h.narrows.append (.singleton _) fun x hx y hy => ?_
    rw [h.last] at hx
    cases hx
    cases hy
    exact hnarrows
  case length => rw [hhistory, List.length_append, h.length, hiterations]; rfl
  case gap =>
    have hgap := h.gap
    have hless := hnarrows.2.2
    dsimp only at hless
    omega
  case digits =>
    have hdigits := h.digits
    rw [hiterations, Nat.add_sub_cancel]
    by_cases hfirst : s.iterations = 0
    · have hmono := Count.bitLength_mono (Nat.le_of_lt hnarrows.2.2)
      dsimp only at hmono
      omega
    · have hmiddle : s.bound o = s.floor + (s.upper - 1 - s.floor) / 2 := if_neg fun h => hfirst h.1
      have hmono := Count.bitLength_mono (hmiddle ▸ hprobed).gap_le_half
      have hhalf := Count.bitLength_half (Nat.sub_pos_of_lt hlt)
      omega

end Search

/-! ## The run -/

section
variable {p : Problem} {o : SearchOptions} {objective : Objective} {families : List Family} {excused : Prop} {t : Session}
  {s : Search} {first : Nat}

/-- By induction on the steps left, of which there are as many as the gap is wide. -/
theorem search_converges (hg : p.graph.WellWired) (hd : p.design.WellWired) (hengine : p.engine.Correct)
    (hall : ∀ f : Family, f ∈ families) (hverify : ∀ m : Model, m.IsMapping p.graph p.design →
      excused ∨ ∃ solution, m.verify p.graph p.design = .ok solution) (ho : o.Unlimited) (start fuel : Nat)
    (hknows : s.Knows p objective) (hloaded : s.Loaded p o objective families t) (h : s.Narrowing first)
    (hfuel : s.upper - s.floor ≤ fuel) :
    Leads excused (Session.search p o objective families start fuel s) t fun s' _ =>
      s'.Knows p objective ∧ s'.Narrowing first ∧ s'.upper ≤ s'.floor := by
  induction fuel generalizing s t with
  | zero => exact Leads.pure ⟨hknows, h, Nat.le_of_sub_eq_zero (Nat.le_zero.mp hfuel)⟩
  | succ fuel ih =>
    have hexpired : Leads excused (Session.expired o start) t fun expired t' => expired = false ∧ t' = t := by
      unfold Session.expired
      rw [ho.timeBudget]
      exact Leads.pure ⟨rfl, rfl⟩
    rw [Session.search]
    refine hexpired.bind fun expired t₁ h₁ => ?_
    obtain ⟨rfl, rfl⟩ := h₁
    rw [Search.next_of_unlimited ho h.pins]
    by_cases hmet : s.upper ≤ s.floor
    · rw [if_pos hmet]
      exact Leads.pure ⟨hknows, h, hmet⟩
    rw [if_neg hmet]
    have hlt := Nat.lt_of_not_le hmet
    refine (advance_leads hg hd hall hengine hverify hknows hloaded (Search.bound_lt_upper hlt)).bind fun s' t₂ h₂ => ?_
    obtain ⟨hknows', hloaded', hprobed⟩ := h₂
    have hshrinks := (hprobed.narrows (Search.floor_le_bound hlt) (Search.bound_lt_upper hlt)).2.2
    dsimp only at hshrinks
    refine ih hknows' hloaded' (h.probed hlt hprobed ?_) (by omega)
    -- The best model is a mapping, so the floor holds for it.
    have hpins : s'.pins = none := by cases hprobed <;> exact h.pins
    exact hknows'.floor hknows'.mapping.holds (by simp [Pinning, hpins]) hknows'.upper

/-! ## The result -/

/-- What a search went through after a first model that scores `first`, until its bounds met. -/
structure Optimum.Converged (b : Optimum) (first : Nat) : Prop where
  /-- The history leads from the bounds after the first model to those of the result, one pair for each step. -/
  head : b.history.head? = some (0, first)
  last : b.history.getLast? = some (b.lower, b.upper)
  length : b.history.length = b.iterations + 1
  /-- In each pair the floor is at most the best score. -/
  ordered : ∀ x ∈ b.history, x.1 ≤ x.2
  /-- Each step moves the bounds towards each other, and at least one of them. -/
  narrows : b.history.IsChain Narrows
  iterations_le : b.iterations ≤ Nat.log2 first + 2
  iterations_eq_zero : first = 0 → b.iterations = 0
  lower_eq_upper : b.lower = b.upper
  provenOptimal : b.provenOptimal = true

theorem Search.Narrowing.converged (h : s.Narrowing first) (hknows : s.Knows p objective) (hmet : s.upper ≤ s.floor) :
    s.optimum.Converged first where
  head := h.head
  last := by
    show s.history.getLast? = some (s.lower, s.upper)
    rw [h.lower, h.last]
  length := h.length
  ordered := h.ordered
  narrows := h.narrows
  iterations_le := by
    show s.iterations ≤ Nat.log2 first + 2
    have hdigits : s.iterations - 1 ≤ bitLength first := (Nat.le_add_right ..).trans h.digits
    unfold bitLength at hdigits
    split at hdigits <;> omega
  iterations_eq_zero hzero := by
    have hgap := h.gap
    show s.iterations = 0
    omega
  lower_eq_upper := Nat.le_antisymm (hknows.lower hknows.mapping.holds hknows.upper) (hmet.trans_eq h.lower.symm)
  provenOptimal := decide_eq_true (hmet.trans_eq h.lower.symm)

/-- A search that finds a mapping converges from the score of its first one. -/
def Optimization.Converged (p : Problem) (objective : Objective) : Optimization → Prop
  | .unsatisfiable => True
  | .best b => ∃ first, (∃ m : Model, m.IsMapping p.graph p.design ∧ objective.eval p.graph p.design m = .ok first) ∧
    b.Converged first

theorem optimize_leads_converged (hg : p.graph.WellWired) (hd : p.design.WellWired) (hengine : p.engine.Correct)
    (hverify : ∀ m : Model, m.IsMapping p.graph p.design →
      excused ∨ ∃ solution, m.verify p.graph p.design = .ok solution)
    (ho : o.Unlimited) (hasserted : t.asserted = [] ∨ ∀ f : Family, f ∈ t.asserted) :
    Leads excused (Session.optimize p o objective) t fun result _ => result.Converged p objective := by
  refine optimize_leads_of hasserted fun families hall start t₁ => ?_
  refine (firstSearch_leads hg hd hall hengine hverify).bind fun found t₂ h₂ => ?_
  cases found with
  | none => exact Leads.pure trivial
  | some s =>
    obtain ⟨hknows, hloaded, hs⟩ := h₂
    have hstart : s.Narrowing s.upper := by
      rw [hs]
      exact .start
    have hfuel : s.upper - s.floor ≤ s.maxSteps := (Nat.sub_le ..).trans (Nat.le_add_right ..)
    refine (search_converges hg hd hengine hall hverify ho start s.maxSteps hknows hloaded hstart hfuel).bind fun s' _ h₃ => ?_
    exact Leads.pure ⟨s.upper, ⟨s.best, hknows.mapping, hknows.upper⟩, h₃.2.1.converged h₃.1 h₃.2.2⟩

end

/-- The search converges. Whatever the engine finds at each probe, an optimisation over all families that no limit stops ends
with equal bounds once it found a first mapping. If that scores `first`, the search takes at most `log2 first + 2` steps, none
from zero on; each of them calls the solver once more and moves the bounds towards each other. -/
theorem optimize_converges {f : Fabric} {options : GraphOptions} {p : Problem} {operations : SortedMap String String}
    {ties : List NamedTie} {duplicates : SortedSet String} (hg : Graph.build f options = .ok p.graph)
    (hd : Design.new operations ties duplicates = .ok p.design) (hengine : p.engine.Correct) {o : SearchOptions}
    (ho : o.Unlimited) (objective : Objective) {s s' : Session}
    (hasserted : s.asserted = [] ∨ ∀ family : Family, family ∈ s.asserted) {clock : Nat → Nat} {b : Optimum}
    (hrun : ((Session.optimize p o objective).run.run s).run clock = (.ok (.best b), s')) :
    s'.calls = s.calls + 1 + b.iterations ∧
      ∃ first, (∃ m : Model, m.IsMapping p.graph p.design ∧ objective.eval p.graph p.design m = .ok first) ∧
        b.Converged first := by
  have hleads : Leads True (Session.optimize p o objective) s fun result _ => result.Converged p objective :=
    optimize_leads_converged (Graph.wellWired_build hg) (Design.wellWired_new hd) hengine (fun _ _ => Or.inl trivial) ho
      hasserted
  have hresult := hleads.run clock
  have hcalls := (optimize_calls p o objective s).run clock
  rw [hrun] at hresult hcalls
  exact ⟨hcalls b rfl, hresult⟩

/-- An optimisation over the line finds a mapping. -/
theorem exists_line_best (o : SearchOptions) (objective : Objective) : ∃ (p : Problem) (b : Optimum) (s : Session),
    Graph.build .line {} = .ok p.graph ∧
    Design.new (.ofList [("c", "const"), ("s", "store")]) [⟨"c", "s", 0⟩] ∅ = .ok p.design ∧ p.engine.Correct ∧
    ((Session.optimize p o objective).run.run {}).run (fun _ => 0) = (.ok (.best b), s) := by
  obtain ⟨g, d, hg, hd⟩ := exists_line
  let p : Problem := ⟨g, d, Sat.exhaustive⟩
  have hleads : Leads False (Session.optimize p o objective) {} fun result _ => result.Sound p objective :=
    optimize_leads (Graph.wellWired_build hg) (Design.wellWired_new hd) Sat.exhaustive_isCorrect
      (fun _ hm => Or.inr (line_verify hg hd hm)) (Or.inl rfl)
  obtain ⟨result, s, hrun, hsound⟩ := hleads.exists_ok fun _ => 0
  cases result with
  | unsatisfiable => exact absurd (line_isMapping hg hd).holds (hsound _)
  | best b => exact ⟨p, b, s, hg, hd, Sat.exhaustive_isCorrect, hrun⟩

theorem line_optimize_converges : ∃ (p : Problem) (o : SearchOptions) (b : Optimum) (s : Session) (first : Nat),
    Graph.build .line {} = .ok p.graph ∧
    Design.new (.ofList [("c", "const"), ("s", "store")]) [⟨"c", "s", 0⟩] ∅ = .ok p.design ∧ p.engine.Correct ∧ o.Unlimited ∧
    ((Session.optimize p o ⟨.routing, .bitHack⟩).run.run {}).run (fun _ => 0) = (.ok (.best b), s) ∧
    s.calls = 1 + b.iterations ∧ b.Converged first := by
  let o : SearchOptions := {
    incremental := true, cutoff := none, freezePlacement := true, finalCutoff := 0, firstCut := .upperMinusOne,
    maxIterations := none, timeBudget := none, checkModels := true }
  have ho : o.Unlimited := ⟨rfl, rfl, rfl⟩
  obtain ⟨p, b, s, hg, hd, hengine, hrun⟩ := exists_line_best o ⟨.routing, .bitHack⟩
  obtain ⟨hcalls, first, -, hconverged⟩ := optimize_converges hg hd hengine ho ⟨.routing, .bitHack⟩ (Or.inl rfl) hrun
  exact ⟨p, o, b, s, first, hg, hd, hengine, ho, hrun, hcalls.trans (congrArg (· + _) (Nat.zero_add 1)), hconverged⟩

end PlaceRoute
