import PlaceRoute.Solver.Word

/-!
# Assertions, scopes and models

An assertion made in a scope carries the scope's activation literal and is switched off for good when the scope is
closed. A check hands the clauses and the activation literals of the open scopes to an engine.
-/

namespace PlaceRoute

open PlaceRoute.Sat (Literal Clause Cnf Assignment Engine)

namespace Solver

/-- The number of open scopes. -/
def depth (s : Solver) : Nat := s.scopes.length

/-- Asserts a term in the innermost open scope. -/
def assert (b : Literal) : SolverM Unit := do
  match (← get).scopes with
  | act :: _ => addClause [b, -act]
  | [] => addClause [b]

/-- Opens a scope. -/
def push : SolverM Unit := do
  let act ← fresh
  modify fun s => { s with scopes := act :: s.scopes }

/-- Closes the innermost scope and takes its assertions back. -/
def pop : CheckedM Unit := do
  match (← get).scopes with
  | [] => throw .emptyScopeStack
  | act :: scopes =>
    modify fun s => { s with scopes := scopes }
    addClause [-act]
    modify fun s => { s with model := none }

/-- The clauses with the open scopes switched on. -/
def problem (s : Solver) : Cnf := s.scopes.map (fun act => [act]) ++ s.clauses

/-- An assignment as the solver keeps it: variables that did not exist yet are false. -/
def restrict (vars : Nat) (a : Assignment) : Assignment := fun v => decide (v < vars) && a v

/-- Whether the active assertions can hold together. -/
def check (engine : Engine) : SolverM Bool := modifyGet fun s =>
  let model := (engine.solve s.problem).map (restrict s.vars)
  (model.isSome, { s with checks := s.checks + 1, model := model })

/-- The assignment that the last check found. -/
def currentModel (s : Solver) : Except Solver.Error Assignment :=
  match s.model with
  | some a => .ok a
  | none => .error .noModel

/-- The value of a term in the last model. -/
def boolValue (s : Solver) (b : Literal) : Except Solver.Error Bool := do
  return b.eval (← s.currentModel)

/-- The value of a word in the last model; of a word longer than 64 bits, of its lowest 64. -/
def wordValue (s : Solver) (w : Word) : Except Solver.Error Nat := do
  return Word.toNat (← s.currentModel) (w.take 64)

end Solver
end PlaceRoute
