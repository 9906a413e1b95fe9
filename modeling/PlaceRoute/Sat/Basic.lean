import Std.Data.TreeMap

/-!
# Propositional formulas in clausal form

Literals, clauses and formulas, their truth under an assignment, and what it means to decide satisfiability: an
`Engine` is any procedure that proposes an assignment, and `Engine.Correct` says that it finds one exactly when there
is one.
-/

namespace PlaceRoute
namespace Sat

/-- A variable or its negation. -/
structure Literal where
  var : Nat
  positive : Bool
  deriving DecidableEq, Repr, Inhabited

namespace Literal

/-- The opposite literal of the same variable. -/
def negate (l : Literal) : Literal := ⟨l.var, !l.positive⟩

instance : Neg Literal := ⟨negate⟩

/-- Literals numbered variable by variable, the positive one first. -/
def code (l : Literal) : Nat := 2 * l.var + (if l.positive then 0 else 1)

/-- The literal of a number. -/
def ofCode (n : Nat) : Literal := ⟨n / 2, n % 2 == 0⟩

instance : Ord Literal := ⟨compareOn code⟩

/-- The signed number of a literal; variables are counted from one, so that each literal has a sign. -/
def toInt (l : Literal) : Int := if l.positive then l.var + 1 else -(l.var + 1)

@[simp] theorem neg_var (l : Literal) : (-l).var = l.var := rfl

@[simp] theorem neg_positive (l : Literal) : (-l).positive = !l.positive := rfl

@[simp] theorem neg_neg (l : Literal) : - -l = l := by
  cases l; simp [Neg.neg, negate]

@[simp] theorem ofCode_code (l : Literal) : ofCode l.code = l := by
  obtain ⟨v, b⟩ := l
  cases b <;> simp [ofCode, code] <;> omega

theorem code_inj {l m : Literal} : l.code = m.code ↔ l = m :=
  ⟨fun h => by rw [← ofCode_code l, h, ofCode_code], fun h => h ▸ rfl⟩

instance : Std.TransOrd Literal := inferInstanceAs (Std.TransCmp (compareOn code))

instance : Std.LawfulEqOrd Literal where
  eq_of_compare h := code_inj.mp (Std.LawfulEqOrd.eq_of_compare (α := Nat) h)

end Literal

/-- A disjunction of literals. -/
abbrev Clause := List Literal

/-- A conjunction of clauses. -/
abbrev Cnf := List Clause

/-- A truth value for each variable. -/
abbrev Assignment := Nat → Bool

/-- The truth of a literal. -/
def Literal.eval (a : Assignment) (l : Literal) : Bool := a l.var == l.positive

/-- A clause holds when one of its literals does. -/
def Clause.eval (a : Assignment) (c : Clause) : Bool := c.any (·.eval a)

/-- A formula holds when all its clauses do. -/
def Cnf.eval (a : Assignment) (f : Cnf) : Bool := f.all (Clause.eval a)

/-- Some assignment makes the formula hold. -/
def Cnf.Satisfiable (f : Cnf) : Prop := ∃ a : Assignment, f.eval a = true

@[simp] theorem Literal.eval_neg (a : Assignment) (l : Literal) : (-l).eval a = !l.eval a := by
  simp only [Literal.eval, Literal.neg_var, Literal.neg_positive]
  cases a l.var <;> cases l.positive <;> rfl

/-- A procedure that proposes a satisfying assignment of a formula, or none. -/
structure Engine where
  solve : Cnf → Option Assignment

/-- An engine is correct when its assignments satisfy and its refusals mean that nothing does. -/
structure Engine.Correct (e : Engine) : Prop where
  sound : ∀ {f : Cnf} {a : Assignment}, e.solve f = some a → f.eval a = true
  complete : ∀ {f : Cnf}, e.solve f = none → ¬ f.Satisfiable

end Sat
end PlaceRoute
