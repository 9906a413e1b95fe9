import PlaceRoute.Proofs.Solver.Scope
import PlaceRoute.Proofs.Solver.Word

/-!
# Scopes that are closed again

`Solver.Scoped s t act`: in a scope opened on `s` gates were built, assertions made and checks run. Closing the scope gives a
solver that conserves `s` (`Scoped.pop`): with the new variables chosen suitably it has the same solutions.
-/

namespace PlaceRoute
namespace Solver

open PlaceRoute.Sat (Literal Clause Cnf Assignment Engine AgreeBelow)

variable {s t u : Solver} {act l : Literal} {a : Assignment}

/-- The solutions of `t` are those of `s`, extended to new variables. -/
structure Conserves (s t : Solver) : Prop where
  wellFormed : t.WellFormed
  vars_le : s.vars ≤ t.vars
  scopes : t.scopes = s.scopes
  holds : ∀ {a : Assignment}, t.Holds a → s.Holds a
  extend : ∀ {a : Assignment}, s.Holds a → ∃ b, AgreeBelow s.vars a b ∧ t.Holds b

theorem Conserves.problem (hst : s.Conserves t) (h : t.problem.eval a = true) : s.problem.eval a = true := by
  obtain ⟨hon, hholds⟩ := problem_eval.mp h
  exact problem_eval.mpr ⟨hst.scopes ▸ hon, hst.holds hholds⟩

theorem Conserves.extend_problem (hs : s.WellFormed) (hst : s.Conserves t) (h : s.problem.eval a = true) :
    ∃ b, AgreeBelow s.vars a b ∧ t.problem.eval b = true := by
  obtain ⟨hon, hholds⟩ := problem_eval.mp h
  obtain ⟨b, hab, hb⟩ := hst.extend hholds
  refine ⟨b, hab, problem_eval.mpr ⟨fun act hact => ?_, hb⟩⟩
  rw [hst.scopes] at hact
  rw [← hab.eval (hs.scopes_lt act hact)]
  exact hon act hact

theorem GrowsTo.conserves (hs : s.WellFormed) (hst : s.GrowsTo t) : s.Conserves t where
  wellFormed := hst.wellFormed
  vars_le := hst.vars_le
  scopes := hst.scopes
  holds h := (hst.holds (hst.wellFormed.respects h)).mp h
  extend h := by
    obtain ⟨b, hab, hb⟩ := hst.extend (hs.respects h)
    exact ⟨b, hab, (hst.holds hb).mpr (h.congr hs hab)⟩

/-- A scope is open on top of those of `s`; switched off, it asks for nothing. -/
structure Scoped (s t : Solver) (act : Literal) : Prop where
  wellFormed : t.WellFormed
  vars_le : s.vars ≤ t.vars
  scopes : t.scopes = act :: s.scopes
  holds : ∀ {a : Assignment}, t.Holds a → s.Holds a
  extend : ∀ {a : Assignment}, s.Holds a → ∃ b, AgreeBelow s.vars a b ∧ t.Holds b ∧ act.eval b = false

theorem scoped_push (hs : s.WellFormed) : s.Scoped (push.run s).2 (fresh.run s).1 := by
  obtain ⟨hst, hfree⟩ := fresh_free hs
  have hwf := hst.wellFormed
  rw [push_run]
  refine ⟨hwf.with (List.forall_mem_nil _) (List.forall_mem_cons.mpr ⟨hfree.lt, hwf.scopes_lt⟩) _ _, hst.vars_le,
    congrArg _ hst.scopes, id, fun {a} ha => ?_⟩
  obtain ⟨b, hab, -, hoff⟩ := hfree.extend (hs.respects ha) false
  have hb : s.Holds b := ha.congr hs hab
  exact ⟨b, hab, hb, hoff⟩

/-- A new scope can be switched on. -/
theorem push_problem (hs : s.WellFormed) (h : s.problem.eval a = true) :
    ∃ b, AgreeBelow s.vars a b ∧ (push.run s).2.problem.eval b = true := by
  obtain ⟨hon, hholds⟩ := problem_eval.mp h
  obtain ⟨b, hab, -, hact⟩ := (fresh_free hs).2.extend (hs.respects hholds) true
  have hb : s.Holds b := hholds.congr hs hab
  rw [push_run]
  refine ⟨b, hab, problem_eval.mpr ⟨List.forall_mem_cons.mpr ⟨hact, fun k hk => ?_⟩, hb⟩⟩
  rw [← hab.eval (hs.scopes_lt k hk)]
  exact hon k hk

theorem Scoped.grow (h : s.Scoped t act) (htu : t.GrowsTo u) : s.Scoped u act where
  wellFormed := htu.wellFormed
  vars_le := Nat.le_trans h.vars_le htu.vars_le
  scopes := htu.scopes.trans h.scopes
  holds hu := h.holds ((htu.holds (htu.wellFormed.respects hu)).mp hu)
  extend ha := by
    obtain ⟨b, hab, hb, hoff⟩ := h.extend ha
    obtain ⟨c, hbc, hc⟩ := htu.extend (h.wellFormed.respects hb)
    refine ⟨c, hab.trans (hbc.mono h.vars_le), (htu.holds hc).mpr (hb.congr h.wellFormed hbc), ?_⟩
    rw [← hbc.eval (h.wellFormed.scopes_lt act (h.scopes ▸ List.mem_cons_self))]
    exact hoff

theorem Scoped.assert (h : s.Scoped t act) (hl : l.var < t.vars) : s.Scoped ((Solver.assert l).run t).2 act := by
  have hguard : guard t = [-act] := by rw [guard, h.scopes]; rfl
  have hact := h.wellFormed.scopes_lt act (h.scopes ▸ List.mem_cons_self)
  rw [assert_run, hguard]
  refine ⟨h.wellFormed.with (c := [[l, -act]]) (List.forall_mem_singleton.mpr ?_) h.wellFormed.scopes_lt _ _, h.vars_le,
    h.scopes, fun hc => h.holds (holds_cons.mp hc).2, fun ha => ?_⟩
  · exact List.forall_mem_cons.mpr ⟨hl, List.forall_mem_singleton.mpr (by simpa using hact)⟩
  · obtain ⟨b, hab, hb, hoff⟩ := h.extend ha
    exact ⟨b, hab, holds_cons.mpr ⟨by simp [Clause.eval, hoff], hb⟩, hoff⟩

theorem Scoped.check (h : s.Scoped t act) (checks : Nat) (model : Option Assignment) :
    s.Scoped { t with checks := checks, model := model } act :=
  ⟨h.wellFormed.with (List.forall_mem_nil _) h.wellFormed.scopes_lt _ _, h.vars_le, h.scopes, h.holds, h.extend⟩

/-- The scope is closed, and what was asserted in it is taken back. -/
theorem Scoped.pop (h : s.Scoped t act) :
    ∃ u, Solver.pop.run.run t = (.ok (), u) ∧ s.Conserves u := by
  have hact := h.wellFormed.scopes_lt act (h.scopes ▸ List.mem_cons_self)
  have hlt : ∀ k ∈ s.scopes, k.var < t.vars := fun k hk =>
    h.wellFormed.scopes_lt k (h.scopes ▸ List.mem_cons_of_mem _ hk)
  refine ⟨_, pop_run_cons h.scopes, h.wellFormed.with (c := [[-act]]) (List.forall_mem_singleton.mpr ?_) hlt _ _, h.vars_le,
    rfl, fun hc => h.holds (holds_cons.mp hc).2, fun ha => ?_⟩
  · exact List.forall_mem_singleton.mpr (by simpa using hact)
  · obtain ⟨b, hab, hb, hoff⟩ := h.extend ha
    exact ⟨b, hab, holds_cons.mpr ⟨by simp [Clause.eval, hoff], hb⟩⟩

/-- An assertion narrows what the next check may find, in a scope or outside of scopes. -/
theorem assert_problem : ((Solver.assert l).run s).2.problem.eval a = true ↔
    l.eval a = true ∧ s.problem.eval a = true := by
  rw [assert_run, problem_eval, problem_eval, holds_cons, Clause.eval, List.any_cons, guard]
  show (∀ act ∈ s.scopes, _) ∧ _ ∧ _ ↔ _
  cases s.scopes with
  | nil => simp
  | cons act acts =>
    rw [List.forall_mem_cons]
    cases hon : act.eval a <;> simp [hon, and_left_comm]

/-- A check leaves behind what the engine found of the solver's variables. -/
theorem check_run (engine : Engine) (s : Solver) : (Solver.check engine).run s = ((engine.solve s.problem).isSome,
    { s with checks := s.checks + 1, model := (engine.solve s.problem).map (restrict s.vars) }) :=
  congrArg (fun found => (found, _)) Option.isSome_map

end Solver
end PlaceRoute
