import PlaceRoute.Sat.Basic

/-!
# Gates over a growing clause set

A `Solver` collects clauses. Boolean terms are literals; each connective returns the literal of a gate whose clauses
pin it to its meaning, folds constants, and shares gates between equal operands. Variable `0` is the constant true.
-/

namespace PlaceRoute

open PlaceRoute.Sat (Literal Clause Cnf Assignment)

/-- An unordered pair of literals, the operands of a gate. -/
structure GateKey where
  low : Literal
  high : Literal
  deriving DecidableEq, Repr

namespace GateKey

/-- The pair of two literals, smaller code first. -/
def of (a b : Literal) : GateKey := if a.code ≤ b.code then ⟨a, b⟩ else ⟨b, a⟩

instance : Ord GateKey := ⟨compareLex (compareOn low) (compareOn high)⟩

instance : Std.TransOrd GateKey := inferInstanceAs (Std.TransCmp (compareLex (compareOn low) (compareOn high)))

instance : Std.LawfulEqOrd GateKey where
  eq_of_compare {a b} h := by
    obtain ⟨hl, hh⟩ := compareLex_eq_eq.mp h
    cases a; cases b
    cases Std.LawfulEqOrd.eq_of_compare (α := Literal) hl
    cases Std.LawfulEqOrd.eq_of_compare (α := Literal) hh
    rfl

end GateKey

/-- The clauses, gates and scopes built so far. -/
structure Solver where
  /-- The number of variables. -/
  vars : Nat
  /-- The clauses, newest first. -/
  clauses : List Clause
  /-- The number of satisfiability checks run. -/
  checks : Nat
  /-- The outputs of the conjunctions built. -/
  andGates : Std.TreeMap GateKey Literal
  /-- The outputs of the exclusive disjunctions built, over positive literals. -/
  xorGates : Std.TreeMap GateKey Literal
  /-- The activation literals of the open scopes, innermost first. -/
  scopes : List Literal
  /-- The assignment found by the last check, unless it found none or a scope was closed since. -/
  model : Option Assignment

/-- Sizes of the problem that the solver holds. -/
structure Solver.Stats where
  vars : Nat
  clauses : Nat
  checks : Nat
  deriving DecidableEq, Repr

/-- Reasons why a solver operation fails. -/
inductive Solver.Error where
  | emptyScopeStack
  | noModel
  | widthMismatch (left right : Nat)
  | outOfRange (hi lo width : Nat)
  deriving DecidableEq, Repr

/-- The text of a failure. -/
def Solver.Error.message : Solver.Error → String
  | emptyScopeStack => "pop without matching push"
  | noModel => "no model available"
  | widthMismatch left right => s!"width mismatch: {left} vs {right}"
  | outOfRange hi lo width => s!"bit range [{hi}:{lo}] out of bounds for width {width}"

/-- Construction steps over a solver. -/
abbrev SolverM := StateM Solver

/-- Construction steps that may fail. -/
abbrev CheckedM := ExceptT Solver.Error SolverM

namespace Solver

/-- The constant true. -/
def tt : Literal := ⟨0, true⟩

/-- The constant false. -/
def ff : Literal := ⟨0, false⟩

/-- A boolean constant. -/
def ofBool (b : Bool) : Literal := if b then tt else ff

/-- The value of a term that is a constant. -/
def asConst (l : Literal) : Option Bool := if l = tt then some true else if l = ff then some false else none

/-- The solver that knows only that true is true. -/
def new : Solver where
  vars := 1
  clauses := [[tt]]
  checks := 0
  andGates := ∅
  xorGates := ∅
  scopes := []
  model := none

instance : Inhabited Solver := ⟨new⟩

/-- The sizes of the problem. -/
def stats (s : Solver) : Stats := ⟨s.vars, s.clauses.length, s.checks⟩

/-- An unconstrained boolean. -/
def fresh : SolverM Literal := modifyGet fun s => (⟨s.vars, true⟩, { s with vars := s.vars + 1 })

/-- Adds a clause for good. -/
def addClause (c : Clause) : SolverM Unit := modify fun s => { s with clauses := c :: s.clauses }

/-- A new gate for the conjunction of two literals. -/
def newAnd (a b : Literal) : SolverM Literal := do
  let out ← fresh
  addClause [-out, a]
  addClause [-out, b]
  addClause [out, -a, -b]
  modify fun s => { s with andGates := s.andGates.insert (.of a b) out }
  pure out

/-- Conjunction. -/
def and (a b : Literal) : SolverM Literal := do
  if a = ff ∨ b = ff ∨ a = -b then pure ff
  else if a = tt ∨ a = b then pure b
  else if b = tt then pure a
  else match (← get).andGates[GateKey.of a b]? with
    | some out => pure out
    | none => newAnd a b

/-- Disjunction. -/
def or (a b : Literal) : SolverM Literal := do
  let out ← and (-a) (-b)
  pure (-out)

/-- A new gate for the exclusive disjunction of two literals. -/
def newXor (a b : Literal) : SolverM Literal := do
  let out ← fresh
  addClause [-out, a, b]
  addClause [-out, -a, -b]
  addClause [out, -a, b]
  addClause [out, a, -b]
  modify fun s => { s with xorGates := s.xorGates.insert (.of a b) out }
  pure out

/-- The positive literal of the same variable. -/
def positive (l : Literal) : Literal := ⟨l.var, true⟩

/-- Exclusive disjunction; the gate is shared by all four sign patterns of its operands. -/
def xor (a b : Literal) : SolverM Literal := do
  if a = ff then pure b
  else if b = ff then pure a
  else if a = tt then pure (-b)
  else if b = tt then pure (-a)
  else if a = b then pure ff
  else if a = -b then pure tt
  else
    let out ← match (← get).xorGates[GateKey.of (positive a) (positive b)]? with
      | some out => pure out
      | none => newXor (positive a) (positive b)
    pure (if a.positive = b.positive then out else -out)

/-- Equivalence. -/
def iff (a b : Literal) : SolverM Literal := do
  let out ← xor a b
  pure (-out)

/-- Implication. -/
def implies (a b : Literal) : SolverM Literal := or (-a) b

/-- Choice between two terms. -/
def ite (cond thn els : Literal) : SolverM Literal := do
  match asConst cond with
  | some c => pure (if c then thn else els)
  | none =>
    if thn = els then pure thn
    else
      let t ← and cond thn
      let e ← and (-cond) els
      or t e

/-- Conjunction of all terms; true when there is none. -/
def andAll (terms : List Literal) : SolverM Literal := terms.foldlM and tt

/-- Disjunction of all terms; false when there is none. -/
def orAll (terms : List Literal) : SolverM Literal := terms.foldlM or ff

end Solver
end PlaceRoute
