import PlaceRoute.Sat.Search

/-!
# What a search may conclude

`Search.Entailed f s` says that every clause of the search follows from the formula. Propagation, decisions and
restarts leave the clauses alone, and a learned clause is a chain of resolvents, so the property holds at every step;
`conflictDriven_isCorrect` follows, since a refutation is the empty clause.
-/

namespace PlaceRoute
namespace Sat

/-- A coded clause follows from a formula. -/
def Entails (f : Cnf) (c : List Nat) : Prop := ∀ a : Assignment, f.eval a = true → Coded.Holds a c

theorem Entails.not_satisfiable {f : Cnf} (h : Entails f []) : ¬ f.Satisfiable :=
  fun ⟨a, holds⟩ => by simpa [Coded.Holds] using h a holds

theorem Entails.mono {f : Cnf} {c d : List Nat} (h : Entails f c) (sub : ∀ k ∈ c, k ∈ d) : Entails f d :=
  fun a holds => let ⟨k, mem, t⟩ := h a holds; ⟨k, sub k mem, t⟩

theorem Entails.resolve {f : Cnf} {rank : Nat → Nat} {k : Nat} {c d : List Nat} (hc : Entails f (k :: c))
    (hd : Entails f d) : Entails f (Coded.resolve rank k c d) :=
  fun a holds => Coded.holds_resolve (hc a holds) (hd a holds)

theorem entails_tautology (f : Cnf) : Entails f [0, 1] := fun a _ => by
  cases h : a 0 <;> simp [Coded.Holds, Coded.literalHolds, Literal.ofCode, Literal.eval, h]

theorem entails_codes {f : Cnf} {c : Clause} (mem : c ∈ f) : Entails f c.codes := fun a holds => by
  simp only [Cnf.eval, List.all_eq_true, Clause.eval, List.any_eq_true] at holds
  obtain ⟨l, hl, t⟩ := holds c mem
  exact ⟨l.code, List.mem_eraseDups.mpr (List.mem_map_of_mem hl), by simpa [Coded.literalHolds] using t⟩

namespace Search

/-! ### Steps that leave the clauses alone -/

@[simp] theorem clauses_assign (s : Search) (k : Nat) (r : Option Nat) : (s.assign k r).clauses = s.clauses := rfl

@[simp] theorem clauses_branch (s : Search) (v : Nat) : (s.branch v).clauses = s.clauses := rfl

@[simp] theorem clauses_visit (k : Nat) (ws : Array Nat) (n : Nat) (kept : Array Nat) (s : Search) :
    (visit k ws n kept s).1.clauses = s.clauses := by
  fun_induction visit k ws n kept s with
  | case1 => rfl
  | case2 => assumption
  | case3 => rename_i moved ih; rw [ih]; simp only [moved]; split <;> rfl
  | case4 => rfl
  | case5 => rename_i ih; rw [ih, clauses_assign]

@[simp] theorem clauses_propagate (n : Nat) (s : Search) : (propagate n s).1.clauses = s.clauses := by
  induction n generalizing s with
  | zero => rfl
  | succ n ih =>
    simp only [propagate]
    split
    · split
      · simp
      · rw [ih]; simp
    · rfl

@[simp] theorem clauses_foldl_unassign (ks : List Nat) (s : Search) : (ks.foldl unassign s).clauses = s.clauses := by
  induction ks generalizing s with
  | nil => rfl
  | cons k ks ih => rw [List.foldl_cons, ih]; rfl

@[simp] theorem clauses_backjump (s : Search) (level : Nat) : (s.backjump level).clauses = s.clauses := by
  simp only [backjump]
  split
  · rfl
  · exact clauses_foldl_unassign ..

@[simp] theorem clauses_fix (s : Search) : s.fix.clauses = s.clauses := by
  unfold fix
  split <;> rfl

@[simp] theorem clauses_pick (n : Nat) (s : Search) : (pick n s).1.clauses = s.clauses := by
  induction n generalizing s with
  | zero => rfl
  | succ n ih =>
    simp only [pick]
    split
    · rfl
    · split
      · rw [ih]
      · rfl

@[simp] theorem clauses_assignUnits (us : List (Nat × List Nat)) (s : Search) :
    (assignUnits us s).1.clauses = s.clauses := by
  fun_induction assignUnits us s <;> simp_all

theorem clauses_addClause (s : Search) (c : List Nat) : (s.addClause c).clauses = s.clauses.push c := by
  unfold addClause; split <;> rfl

/-! ### Entailed clauses -/

/-- All clauses of the search follow from the formula. -/
def Entailed (f : Cnf) (s : Search) : Prop := ∀ c ∈ s.clauses, Entails f c

theorem Entailed.of_clauses_eq {f : Cnf} {s t : Search} (h : s.Entailed f) (same : t.clauses = s.clauses) :
    t.Entailed f := fun c mem => h c (same ▸ mem)

theorem Entailed.addClause {f : Cnf} {s : Search} {c : List Nat} (h : s.Entailed f) (new : Entails f c) :
    (s.addClause c).Entailed f := fun d mem => by
  rw [clauses_addClause, Array.mem_push] at mem
  exact mem.elim (h d) (· ▸ new)

theorem Entailed.foldl_addClause {f : Cnf} (cs : List (List Nat)) {s : Search} (h : s.Entailed f)
    (new : ∀ c ∈ cs, Entails f c) : (cs.foldl Search.addClause s).Entailed f := by
  induction cs generalizing s with
  | nil => exact h
  | cons c cs ih =>
    exact ih (h.addClause (new c (List.mem_cons_self ..))) fun d mem => new d (List.mem_cons_of_mem _ mem)

theorem Entailed.clause {f : Cnf} {s : Search} (h : s.Entailed f) (i : Nat) : Entails f (s.clause i) := by
  unfold Search.clause
  rw [Array.getD_eq_getD_getElem?]
  cases found : s.clauses[i]? with
  | none => exact entails_tautology f
  | some c => exact h c (Array.mem_of_getElem? found)

theorem mem_byRank {s : Search} {c : List Nat} {k : Nat} : k ∈ s.byRank c ↔ k ∈ c := by
  have general (acc : List Nat) : k ∈ c.foldl (fun c k => Coded.insertByRank s.rank k c) acc ↔ k ∈ acc ∨ k ∈ c := by
    induction c generalizing acc with
    | nil => simp
    | cons j c ih => rw [List.foldl_cons, ih, Coded.mem_insertByRank, List.mem_cons]; grind
  simpa [byRank] using general []

theorem Entailed.byRank_clause {f : Cnf} {s : Search} (h : s.Entailed f) (i : Nat) :
    Entails f (s.byRank (s.clause i)) := (h.clause i).mono fun _ mem => mem_byRank.mpr mem

theorem Entailed.analyze {f : Cnf} {s : Search} (h : s.Entailed f) {lowest n : Nat} {met c : List Nat}
    {learned : List Nat × List Nat} (false : Entails f c) (found : s.analyze lowest n met c = some learned) :
    Entails f learned.1 := by
  induction n generalizing met c with
  | zero => simp [Search.analyze] at found
  | succ n ih =>
    cases c with
    | nil => simp only [Search.analyze, Option.some.injEq] at found; exact found ▸ false
    | cons k c =>
      simp only [Search.analyze] at found
      split at found
      · exact (Option.some.inj found) ▸ false
      split at found
      · exact ih (false.resolve (h.clause _)) found
      · cases found

theorem Entailed.learn {f : Cnf} {s : Search} (h : s.Entailed f) {c met : List Nat} (new : Entails f c) :
    (s.learn c met).Entailed f := by
  cases c with
  | nil => exact h
  | cons k c =>
    refine Entailed.of_clauses_eq (Entailed.addClause (Entailed.of_clauses_eq h ?_) new) (clauses_assign ..)
    exact clauses_backjump ..

/-- A search over entailed clauses refutes only what cannot be satisfied. -/
theorem Entailed.not_satisfiable_of_run {f : Cnf} {n restarts left : Nat} {s : Search} (h : s.Entailed f)
    (refuted : run n restarts left s = .refuted) : ¬ f.Satisfiable := by
  induction n generalizing restarts left s with
  | zero => simp [run] at refuted
  | succ n ih =>
    have propagated := h.of_clauses_eq (clauses_propagate (s.phase.size + 1) s)
    simp only [run] at refuted
    split at refuted
    · next i _ =>
      have conflict := propagated.byRank_clause i
      split at refuted
      · cases refuted
      · next found => exact (propagated.analyze conflict found).not_satisfiable
      · next found => exact ih (propagated.learn (propagated.analyze conflict found)) refuted
    · split at refuted
      · exact ih (propagated.of_clauses_eq (clauses_backjump ..)) refuted
      split at refuted
      · cases refuted
      · exact ih (propagated.of_clauses_eq (by simp)) refuted

/-- The verdict on coded clauses that follow from a formula refutes only what cannot be satisfied. -/
theorem not_satisfiable_of_verdict {f : Cnf} {n : Nat} {cs : List (List Nat)} (given : ∀ c ∈ cs, Entails f c)
    (refuted : verdict n cs = .refuted) : ¬ f.Satisfiable := by
  unfold verdict at refuted
  split at refuted
  · next empty =>
    obtain ⟨c, mem, nil⟩ := List.any_eq_true.mp empty
    exact Entails.not_satisfiable (List.isEmpty_iff.mp nil ▸ given c mem)
  · have start : (empty n).Entailed f := fun c mem => by simp [empty] at mem
    have loaded (us) := (start.foldl_addClause cs given).of_clauses_eq (clauses_assignUnits us _)
    dsimp only at refuted
    split at refuted
    · next i _ =>
      split at refuted
      · next found =>
        exact ((loaded _).analyze ((loaded _).byRank_clause i) found).not_satisfiable
      · cases refuted
    · exact (loaded _).not_satisfiable_of_run refuted

end Search

theorem conflictDriven_isCorrect : conflictDriven.Correct where
  sound {f a} found := by
    simp only [conflictDriven] at found
    split at found
    · cases found
    · split at found
      · next holds => exact Option.some.inj found ▸ holds
      · exact exhaustive_isCorrect.sound found
    · exact exhaustive_isCorrect.sound found
  complete {f} none := by
    simp only [conflictDriven] at none
    split at none
    · next refuted =>
      refine Search.not_satisfiable_of_verdict (fun c mem => ?_) refuted
      obtain ⟨d, hd, rfl⟩ := List.mem_map.mp mem
      exact entails_codes hd
    · split at none
      · cases none
      · exact exhaustive_isCorrect.complete none
    · exact exhaustive_isCorrect.complete none

end Sat
end PlaceRoute
