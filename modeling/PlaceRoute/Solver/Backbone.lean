import PlaceRoute.Solver.Scope

/-!
# Values that all models agree on

`Solver.backbone` says for each literal whether the active assertions leave it a choice.
-/

namespace PlaceRoute

open PlaceRoute.Sat (Literal Assignment Engine)

/-- What the active assertions leave of a literal. -/
inductive Freedom where
  | never
  | always
  | either
  | unsatisfiable
  deriving DecidableEq, Repr, Inhabited

namespace Solver

/-- Asserts in the innermost scope that one of the literals is false. -/
def someFalse (lits : List Literal) : SolverM Unit := do
  match (← get).scopes with
  | act :: _ => addClause (lits.map (fun l => -l) ++ [-act])
  | [] => addClause (lits.map fun l => -l)

/-- Those of some literals that hold in every model; each of the `fuel` rounds asks for a model in which one fails. -/
def alwaysAmong (engine : Engine) : Nat → List Literal → SolverM (List Literal)
  | 0, candidates => pure candidates
  | fuel + 1, candidates => do
    someFalse candidates
    if ← check engine then
      let a := (← get).model.getD fun _ => false
      alwaysAmong engine fuel (candidates.filter (·.eval a))
    else pure candidates

/-- The freedom of each literal under the active assertions. -/
def backbone (engine : Engine) (lits : List Literal) : CheckedM (List Freedom) := do
  push
  let freedoms ← if ← check engine then
      let a := (← get).model.getD fun _ => false
      let fixed ← alwaysAmong engine (lits.length + 1) (lits.map fun l => if l.eval a then l else -l)
      pure (lits.map fun l => if l ∈ fixed then .always else if -l ∈ fixed then .never else .either)
    else pure (lits.map fun _ => .unsatisfiable)
  pop
  pure freedoms

end Solver
end PlaceRoute
