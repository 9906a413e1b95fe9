import PlaceRoute.Sat.Basic

/-!
# Resolution

Clauses as lists of literal codes, and the resolution step. `holds_resolve` says that a resolvent follows from the
two clauses, in whatever order its literals are kept; a refutation built from such steps needs no further check.
-/

namespace PlaceRoute
namespace Sat
namespace Coded

/-- The code of the opposite literal. -/
def flip (k : Nat) : Nat := if k % 2 = 0 then k + 1 else k - 1

/-- The truth of the literal with code `k`. -/
def literalHolds (a : Assignment) (k : Nat) : Bool := (Literal.ofCode k).eval a

/-- A coded clause holds when one of its literals does. -/
def Holds (a : Assignment) (c : List Nat) : Prop := ∃ k ∈ c, literalHolds a k = true

/-- Puts a code before the first one of smaller rank, unless it meets itself. -/
def insertByRank (rank : Nat → Nat) (k : Nat) : List Nat → List Nat
  | [] => [k]
  | j :: c =>
    if k = j then j :: c
    else if rank j < rank k then k :: j :: c
    else j :: insertByRank rank k c

/-- The resolvent of `pivot :: c` and `d`: all literals but the pivot and its opposite, highest rank first. -/
def resolve (rank : Nat → Nat) (pivot : Nat) (c d : List Nat) : List Nat :=
  d.foldl (fun c k => if k = flip pivot then c else insertByRank rank k c) c

theorem literalHolds_flip (a : Assignment) (k : Nat) : literalHolds a (flip k) = !literalHolds a k := by
  have h : Literal.ofCode (flip k) = -Literal.ofCode k := by
    simp only [flip, Literal.ofCode, Neg.neg, Literal.negate]
    by_cases hk : k % 2 = 0
    · have : (k + 1) / 2 = k / 2 ∧ (k + 1) % 2 = 1 := by omega
      simp [hk, this]
    · have : (k - 1) / 2 = k / 2 ∧ (k - 1) % 2 = 0 ∧ k % 2 = 1 := by omega
      simp [this]
  rw [literalHolds, h, Literal.eval_neg, literalHolds]

theorem mem_insertByRank {rank : Nat → Nat} {k x : Nat} {c : List Nat} :
    x ∈ insertByRank rank k c ↔ x = k ∨ x ∈ c := by
  induction c with
  | nil => simp [insertByRank]
  | cons j c ih =>
    rw [insertByRank]
    split
    · next h => simp [h]
    · split
      · simp
      · simp only [List.mem_cons, ih]; exact or_left_comm

theorem mem_resolve {rank : Nat → Nat} {pivot x : Nat} {c d : List Nat} :
    x ∈ resolve rank pivot c d ↔ x ∈ c ∨ (x ∈ d ∧ x ≠ flip pivot) := by
  induction d generalizing c with
  | nil => simp [resolve]
  | cons k d ih =>
    rw [resolve, List.foldl_cons, ← resolve, ih]
    split
    · next h => subst h; simp; grind
    · next h => rw [mem_insertByRank]; simp; grind

/-- A resolvent follows from the clauses that it is made of. -/
theorem holds_resolve {rank : Nat → Nat} {pivot : Nat} {c d : List Nat} {a : Assignment}
    (hc : Holds a (pivot :: c)) (hd : Holds a d) : Holds a (resolve rank pivot c d) := by
  obtain ⟨k, hk, hk'⟩ := hc
  rcases List.mem_cons.mp hk with rfl | hk
  · obtain ⟨j, hj, hj'⟩ := hd
    refine ⟨j, mem_resolve.mpr (.inr ⟨hj, ?_⟩), hj'⟩
    rintro rfl
    simp [literalHolds_flip, hk'] at hj'
  · exact ⟨k, mem_resolve.mpr (.inl hk), hk'⟩

end Coded
end Sat
end PlaceRoute
