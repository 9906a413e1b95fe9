import PlaceRoute.Sat.Basic

/-!
# Search by case distinction

`exhaustive` decides a formula by fixing its variables one after the other. `exhaustive_isCorrect` says that it is a
correct engine; it is the yardstick and the last resort of faster ones.
-/

namespace PlaceRoute
namespace Sat

/-- The formula that remains when `l` is true: clauses with `l` are gone, and so is `-l` from the others. -/
def Cnf.assume (l : Literal) (f : Cnf) : Cnf :=
  (f.filter fun c => l ∉ c).map fun c => c.filter fun m => m ≠ -l

/-- One more than the largest variable of the formula. -/
def Cnf.bound (f : Cnf) : Nat := f.foldl (fun n c => c.foldl (fun n l => max n (l.var + 1)) n) 0

/-- The assignment with one variable changed. -/
def Assignment.set (a : Assignment) (v : Nat) (b : Bool) : Assignment := fun w => if w = v then b else a w

/-- A satisfying assignment of a formula over the variables below `n`. -/
def searchBelow : Nat → Cnf → Option Assignment
  | 0, f => if f.isEmpty then some fun _ => false else none
  | n + 1, f =>
    if [] ∈ f then none
    else match searchBelow n (f.assume ⟨n, true⟩) with
      | some a => some (Assignment.set a n true)
      | none => (searchBelow n (f.assume ⟨n, false⟩)).map (Assignment.set · n false)

/-- The engine that tries every assignment. -/
def exhaustive : Engine := ⟨fun f => searchBelow f.bound f⟩

/-! ### Variables of a formula -/

/-- Every variable of the formula is below `n`. -/
def Cnf.Below (f : Cnf) (n : Nat) : Prop := ∀ c ∈ f, ∀ l ∈ c, l.var < n

theorem le_foldl_clause (c : Clause) (n : Nat) :
    n ≤ c.foldl (fun n l => max n (l.var + 1)) n ∧
      ∀ l ∈ c, l.var < c.foldl (fun n l => max n (l.var + 1)) n := by
  induction c generalizing n with
  | nil => simp
  | cons m c ih =>
    obtain ⟨le, lt⟩ := ih (max n (m.var + 1))
    simp only [List.foldl_cons, List.mem_cons, forall_eq_or_imp]
    exact ⟨by omega, by omega, lt⟩

theorem le_foldl_cnf (f : Cnf) (n : Nat) :
    n ≤ f.foldl (fun n c => c.foldl (fun n l => max n (l.var + 1)) n) n ∧
      f.Below (f.foldl (fun n c => c.foldl (fun n l => max n (l.var + 1)) n) n) := by
  induction f generalizing n with
  | nil => simp [Cnf.Below]
  | cons c f ih =>
    obtain ⟨le, below⟩ := ih (c.foldl (fun n l => max n (l.var + 1)) n)
    obtain ⟨le', lt⟩ := le_foldl_clause c n
    refine ⟨Nat.le_trans le' le, fun d hd l hl => ?_⟩
    rcases List.mem_cons.mp hd with rfl | hd
    · exact Nat.lt_of_lt_of_le (lt l hl) le
    · exact below d hd l hl

theorem Cnf.below_bound (f : Cnf) : f.Below f.bound := (le_foldl_cnf f 0).2

theorem Cnf.Below.assume {f : Cnf} {n : Nat} (h : f.Below (n + 1)) (b : Bool) : (f.assume ⟨n, b⟩).Below n := by
  intro c hc m hm
  simp only [Cnf.assume, List.mem_map, List.mem_filter, decide_eq_true_eq] at hc
  obtain ⟨d, ⟨hd, absent⟩, rfl⟩ := hc
  simp only [List.mem_filter, decide_eq_true_eq] at hm
  have lt := h d hd m hm.1
  refine Nat.lt_of_le_of_ne (Nat.le_of_lt_succ lt) fun same => ?_
  obtain ⟨v, s⟩ := m
  subst same
  by_cases same : s = b
  · exact absent (same ▸ hm.1)
  · exact hm.2 (congrArg (Literal.mk v) (Bool.eq_not.mpr same))

theorem Cnf.Below.eval_congr {f : Cnf} {n : Nat} {a b : Assignment} (h : f.Below n) (agree : ∀ v < n, a v = b v) :
    f.eval a = f.eval b := by
  unfold Cnf.eval
  rw [Bool.eq_iff_iff]
  simp only [List.all_eq_true, Clause.eval, List.any_eq_true, Literal.eval]
  constructor <;> intro all c hc <;> obtain ⟨l, hl, same⟩ := all c hc <;> refine ⟨l, hl, ?_⟩
  · rwa [← agree l.var (h c hc l hl)]
  · rwa [agree l.var (h c hc l hl)]

/-! ### The search decides -/

/-- Under an assignment that makes `l` true, assuming `l` changes nothing. -/
theorem Cnf.eval_assume {a : Assignment} {l : Literal} (f : Cnf) (h : l.eval a = true) :
    (f.assume l).eval a = f.eval a := by
  rw [Bool.eq_iff_iff]
  simp only [Cnf.eval, Cnf.assume, List.all_map, List.all_eq_true, List.mem_filter, decide_eq_true_eq,
    Function.comp_apply, Clause.eval, List.any_eq_true]
  constructor
  · intro all c hc
    by_cases hl : l ∈ c
    · exact ⟨l, hl, h⟩
    · obtain ⟨m, hm, holds⟩ := all c ⟨hc, hl⟩
      exact ⟨m, hm.1, holds⟩
  · rintro all c ⟨hc, -⟩
    obtain ⟨m, hm, holds⟩ := all c hc
    refine ⟨m, ⟨hm, ?_⟩, holds⟩
    rintro rfl
    simp [h] at holds

theorem Cnf.eval_eq_false_of_nil_mem {f : Cnf} (h : [] ∈ f) (a : Assignment) : f.eval a = false := by
  simp only [Cnf.eval, List.all_eq_false]
  exact ⟨[], h, by simp [Clause.eval]⟩

theorem Cnf.Below.eval_set {f : Cnf} {n : Nat} (h : f.Below (n + 1)) (a : Assignment) (b : Bool) :
    f.eval (a.set n b) = (f.assume ⟨n, b⟩).eval a := by
  rw [← Cnf.eval_assume (l := ⟨n, b⟩) f (by simp [Literal.eval, Assignment.set])]
  refine (h.assume b).eval_congr fun v lt => ?_
  simp [Assignment.set, Nat.ne_of_lt lt]

/-- What the search returns satisfies the formula. -/
theorem eval_of_searchBelow_eq_some {n : Nat} {f : Cnf} {a : Assignment} (below : f.Below n)
    (h : searchBelow n f = some a) : f.eval a = true := by
  induction n generalizing f a with
  | zero =>
    simp only [searchBelow] at h
    split at h
    · next empty => simp [Cnf.eval, List.isEmpty_iff.mp empty]
    · cases h
  | succ n ih =>
    simp only [searchBelow] at h
    split at h
    · cases h
    split at h
    · next found =>
      obtain rfl := Option.some.inj h
      rw [below.eval_set]
      exact ih (below.assume true) found
    · obtain ⟨b, found, rfl⟩ := Option.map_eq_some_iff.mp h
      rw [below.eval_set]
      exact ih (below.assume false) found

/-- The search returns nothing only when no assignment satisfies the formula. -/
theorem eval_of_searchBelow_eq_none {n : Nat} {f : Cnf} (below : f.Below n) (h : searchBelow n f = none)
    (a : Assignment) : f.eval a = false := by
  induction n generalizing f with
  | zero =>
    simp only [searchBelow] at h
    split at h
    · cases h
    match f with
    | [] => contradiction
    | [] :: f => exact Cnf.eval_eq_false_of_nil_mem (List.mem_cons_self ..) a
    | (l :: c) :: f => exact absurd (below (l :: c) (List.mem_cons_self ..) l (List.mem_cons_self ..)) (Nat.not_lt_zero _)
  | succ n ih =>
    simp only [searchBelow] at h
    split at h
    · next nil => exact Cnf.eval_eq_false_of_nil_mem nil a
    split at h
    · cases h
    · next refuted =>
      have refuted' := Option.map_eq_none_iff.mp h
      cases value : a n with
      | true =>
        rw [← Cnf.eval_assume (l := ⟨n, true⟩) f (by simp [Literal.eval, value])]
        exact ih (below.assume true) refuted
      | false =>
        rw [← Cnf.eval_assume (l := ⟨n, false⟩) f (by simp [Literal.eval, value])]
        exact ih (below.assume false) refuted'

theorem exhaustive_isCorrect : exhaustive.Correct where
  sound h := eval_of_searchBelow_eq_some (Cnf.below_bound _) h
  complete := fun h ⟨a, holds⟩ => by
    simp [eval_of_searchBelow_eq_none (Cnf.below_bound _) h a] at holds

end Sat
end PlaceRoute
