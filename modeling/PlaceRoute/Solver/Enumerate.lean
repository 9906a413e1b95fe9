import PlaceRoute.Solver.Scope

/-!
# All values of some words

`Solver.models` lists every combination of values that some words can take under the active assertions.
-/

namespace PlaceRoute

open PlaceRoute.Sat (Literal Clause Assignment Engine)

namespace Solver

/-- Asserts in the innermost scope that some of the bits differs from its value under `a`. -/
def exclude (a : Assignment) (bits : List Literal) : SolverM Unit := do
  let differs := bits.map fun l => if l.eval a then -l else l
  match (← get).scopes with
  | act :: _ => addClause (differs ++ [-act])
  | [] => addClause differs

/-- Collects rows until no other is possible; `none` when there are more than `left`. -/
def rowsUpTo (engine : Engine) (words : List Word) : Nat → SolverM (Option (List (List Nat)))
  | 0 => do
    if ← check engine then pure none else pure (some [])
  | left + 1 => do
    if ← check engine then
      let a := (← get).model.getD fun _ => false
      exclude a words.flatten
      let rows ← rowsUpTo engine words left
      pure (rows.map (words.map (fun w => Word.toNat a (w.take 64)) :: ·))
    else pure (some [])

/-- Rows of numbers in lexicographic order. -/
def rowLE : List Nat → List Nat → Bool
  | [], _ => true
  | _ :: _, [] => false
  | a :: as, b :: bs => if a = b then rowLE as bs else decide (a < b)

/-- Every row of values of the words under the active assertions, in order; `none` if there are more than `limit`. -/
def models (engine : Engine) (words : List Word) (limit : Nat) : CheckedM (Option (List (List Nat))) := do
  push
  let rows ← rowsUpTo engine words limit
  pop
  pure (rows.map fun rows => rows.mergeSort rowLE)

end Solver
end PlaceRoute
