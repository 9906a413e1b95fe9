import PlaceRoute.Session.Optimize

/-!
# Placing and routing a design

The whole run: count units, solve or optimise, check the model.
-/

namespace PlaceRoute

/-- The result of a run. -/
structure Outcome where
  feasibility : Feasibility
  /-- The mapping, if there is one. -/
  solution : Option Solution
  /-- What the search found, if there was one. -/
  optimization : Option Optimization

namespace Session

/-- A model of all families, if there is one. -/
def solveAll (p : Problem) : SessionM (Option Model) := do
  declare p
  assertFamilies p Family.all
  solveModel p

/-- A model of least score, if there is any, and what the search found. -/
def optimizeAll (p : Problem) (s : OptimizeSettings) : SessionM (Option Model × Optimization) := do
  let some options := s.searchOptions? | throw .brokenOff
  let result ← optimize p options s.objective
  match result with
  | .unsatisfiable => pure (none, result)
  | .best o => pure (some o.model, result)

/-- Maps the design onto the graph. That there is no mapping is a result and no failure. -/
def placeAndRoute (p : Problem) (s : OptimizeSettings) : SessionM Outcome := do
  let feasibility ← attest p
  let (model, optimization) ← match feasibility with
    | .infeasible .. => pure (none, none)
    | .feasible =>
      if s.enabled then do
        let (model, result) ← optimizeAll p s
        pure (model, some result)
      else do
        let model ← solveAll p
        pure (model, none)
  let solution ← model.mapM (confirm p)
  pure ⟨feasibility, solution, optimization⟩

end Session
end PlaceRoute
