import PlaceRoute.Proofs.Solver.Growth

/-!
# Assertions, scopes and checks, one step each

What `assert`, `push` and `pop` make of a solver (`assert_run`, `push_run`, `pop_run_nil`, `pop_run_cons`), and what the
problem of a check asks for (`problem_eval`).
-/

namespace PlaceRoute

open PlaceRoute.Sat (Literal Clause Cnf Assignment Engine AgreeBelow)

namespace Solver

section
variable {s : Solver} {scopes : List Literal} {c : Cnf} {act : Literal} {a : Assignment}

theorem respects_with_iff (c : Cnf) (checks : Nat) (scopes : List Literal) (model : Option Assignment)
    {a : Assignment} : { s with clauses := c, checks := checks, scopes := scopes, model := model }.Respects a ↔
      s.Respects a :=
  ⟨fun h => ⟨h.truth, h.and, h.xor⟩, fun h => ⟨h.truth, h.and, h.xor⟩⟩

/-- More clauses over the variables at hand, and other scopes among them. -/
theorem WellFormed.with (hs : s.WellFormed) (hc : Cnf.Below c s.vars) (hscopes : ∀ act ∈ scopes, act.var < s.vars)
    (checks : Nat) (model : Option Assignment) :
    { s with clauses := c ++ s.clauses, checks := checks, scopes := scopes, model := model }.WellFormed where
  vars_pos := hs.vars_pos
  below d hd := (List.mem_append.mp hd).elim (hc d) (hs.below d)
  and_lt := hs.and_lt
  xor_lt := hs.xor_lt
  scopes_lt := hscopes
  respects {a} ha := by
    refine (respects_with_iff _ checks scopes model).mpr (hs.respects ?_)
    unfold Holds Cnf.eval at ha ⊢
    rw [List.all_append, Bool.and_eq_true] at ha
    exact ha.2

theorem holds_cons {clause : Clause} {checks : Nat} {model : Option Assignment} {a : Assignment} :
    { s with clauses := clause :: s.clauses, checks := checks, scopes := scopes, model := model }.Holds a ↔
      clause.eval a = true ∧ s.Holds a := by
  unfold Holds Cnf.eval
  rw [List.all_cons, Bool.and_eq_true]

/-- What makes an assertion conditional: that the innermost scope is switched off. -/
def guard (s : Solver) : Clause := (s.scopes.head?.map fun act => -act).toList

theorem assert_run (l : Literal) (s : Solver) :
    ((Solver.assert l).run s).2 = { s with clauses := (l :: guard s) :: s.clauses } := by
  obtain ⟨vars, clauses, checks, ands, xors, scopes, model⟩ := s
  cases scopes <;> rfl

theorem push_run (s : Solver) :
    (push.run s).2 = { (fresh.run s).2 with scopes := (fresh.run s).1 :: (fresh.run s).2.scopes } := rfl

theorem pop_run_nil (hscopes : s.scopes = []) : Solver.pop.run.run s = (.error .emptyScopeStack, s) := by
  obtain ⟨vars, clauses, checks, ands, xors, scopes, model⟩ := s
  cases hscopes
  rfl

theorem pop_run_cons (hscopes : s.scopes = act :: scopes) : Solver.pop.run.run s =
    (.ok (), { s with clauses := [-act] :: s.clauses, scopes := scopes, model := none }) := by
  obtain ⟨vars, clauses, checks, ands, xors, scopes, model⟩ := s
  cases hscopes
  rfl

/-- The problem of a check is that the scopes are switched on and the clauses hold. -/
theorem problem_eval : s.problem.eval a = true ↔ (∀ act ∈ s.scopes, act.eval a = true) ∧ s.Holds a := by
  unfold problem Holds Cnf.eval
  rw [List.all_append, Bool.and_eq_true, List.all_map, List.all_eq_true]
  simp [Clause.eval]

/-- What the solver keeps of an assignment is its values of the variables. -/
theorem agreeBelow_restrict (n : Nat) (a : Assignment) : AgreeBelow n (restrict n a) a := fun v hv => by
  simp [restrict, hv]

end

end Solver
end PlaceRoute
