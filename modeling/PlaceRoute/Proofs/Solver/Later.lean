import PlaceRoute.Proofs.Solver.Scope
import PlaceRoute.Proofs.Solver.Word

/-!
# Later solvers

`Solver.Later s t`: steps on `s` led to `t`. The gates of `s` are still there, whatever was built since, asserted, opened,
closed or checked (`GrowsTo.later`, `later_assert`, `later_push`, `later_pop`, `later_check`).
-/

namespace PlaceRoute

open PlaceRoute.Sat (Literal Cnf Assignment Engine AgreeBelow)

namespace Solver

variable {s t u : Solver} {l : Literal}

/-- Steps on `s` led to `t`, which still has the gates of `s`. -/
structure Later (s t : Solver) : Prop where
  wellFormed : t.WellFormed
  vars_le : s.vars ≤ t.vars
  respects : ∀ {a : Assignment}, t.Respects a → s.Respects a
  extend : ∀ {a : Assignment}, s.Respects a → ∃ b, AgreeBelow s.vars a b ∧ t.Respects b

theorem GrowsTo.later (h : s.GrowsTo t) : s.Later t := ⟨h.wellFormed, h.vars_le, h.respects, h.extend⟩

theorem Later.refl (hs : s.WellFormed) : s.Later s := (GrowsTo.refl hs).later

theorem Later.trans (h : s.Later t) (h' : t.Later u) : s.Later u where
  wellFormed := h'.wellFormed
  vars_le := Nat.le_trans h.vars_le h'.vars_le
  respects ha := h.respects (h'.respects ha)
  extend ha := by
    obtain ⟨b, hab, hb⟩ := h.extend ha
    obtain ⟨c, hbc, hc⟩ := h'.extend hb
    exact ⟨c, hab.trans (hbc.mono h.vars_le), hc⟩

/-- Clauses over the variables at hand and other scopes among them change no gate. -/
theorem WellFormed.later_with {c : Cnf} {scopes : List Literal} (hs : s.WellFormed) (hc : Cnf.Below c s.vars)
    (hscopes : ∀ act ∈ scopes, act.var < s.vars) (checks : Nat) (model : Option Assignment) :
    s.Later { s with clauses := c ++ s.clauses, checks := checks, scopes := scopes, model := model } where
  wellFormed := hs.with hc hscopes checks model
  vars_le := Nat.le_refl _
  respects := (respects_with_iff ..).mp
  extend ha := ⟨_, .refl _ _, (respects_with_iff ..).mpr ha⟩

theorem later_assert (hs : s.WellFormed) (hl : l.var < s.vars) : s.Later ((assert l).run s).2 := by
  rw [assert_run]
  refine hs.later_with (c := [l :: guard s]) ?_ hs.scopes_lt s.checks s.model
  refine List.forall_mem_singleton.mpr (List.forall_mem_cons.mpr ⟨hl, fun k hk => ?_⟩)
  obtain ⟨act, hact, rfl⟩ := Option.map_eq_some_iff.mp (Option.mem_toList.mp hk)
  exact hs.scopes_lt act (List.mem_of_mem_head? hact)

theorem later_push (hs : s.WellFormed) : s.Later (push.run s).2 := by
  obtain ⟨hst, hfree⟩ := fresh_free hs
  rw [push_run]
  exact hst.later.trans (hst.wellFormed.later_with (c := []) (List.forall_mem_nil _)
    (List.forall_mem_cons.mpr ⟨hfree.lt, hst.wellFormed.scopes_lt⟩) _ _)

theorem later_pop (hs : s.WellFormed) : s.Later (pop.run.run s).2 := by
  cases hscopes : s.scopes with
  | nil =>
    rw [pop_run_nil hscopes]
    exact .refl hs
  | cons act scopes =>
    obtain ⟨hact, hlt⟩ := List.forall_mem_cons.mp (hscopes ▸ hs.scopes_lt)
    rw [pop_run_cons hscopes]
    exact hs.later_with (c := [[-act]]) (List.forall_mem_singleton.mpr (by simpa using hact)) hlt _ _

theorem later_check (engine : Engine) (hs : s.WellFormed) : s.Later ((check engine).run s).2 :=
  hs.later_with (c := []) (List.forall_mem_nil _) hs.scopes_lt _ _

end Solver
end PlaceRoute
