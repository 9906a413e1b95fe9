import Std.Data.TreeMap

/-!
# Finite sets kept in increasing order

A `SortedSet` is a list of strictly increasing elements, so two sets with the same elements are equal and every
listing of a set is in order. `mem_insert` and `mem_ofList` say what the operations hold.
-/

namespace PlaceRoute

/-- A finite set as the strictly increasing list of its elements. -/
structure SortedSet (α : Type) [Ord α] where
  /-- The elements in increasing order. -/
  toList : List α
  /-- Each element lies strictly below all later ones. -/
  increasing : toList.Pairwise fun a b => compare a b = .lt

namespace SortedSet
section
variable {α : Type} [Ord α]

/-- The set without elements. -/
def empty : SortedSet α := ⟨[], .nil⟩

instance : EmptyCollection (SortedSet α) := ⟨empty⟩
instance : Inhabited (SortedSet α) := ⟨empty⟩
instance : Membership α (SortedSet α) := ⟨fun s a => a ∈ s.toList⟩

instance [DecidableEq α] (a : α) (s : SortedSet α) : Decidable (a ∈ s) :=
  inferInstanceAs (Decidable (a ∈ s.toList))

/-- Equal listings are equal sets. -/
@[ext] theorem ext_toList {s t : SortedSet α} (h : s.toList = t.toList) : s = t := by
  cases s; cases t; cases h; rfl

instance [DecidableEq α] : DecidableEq (SortedSet α) := fun s t =>
  decidable_of_iff (s.toList = t.toList) ⟨ext_toList, fun h => h ▸ rfl⟩

/-- The number of elements. -/
def size (s : SortedSet α) : Nat := s.toList.length

/-- Whether there is no element. -/
def isEmpty (s : SortedSet α) : Bool := s.toList.isEmpty

/-- Puts `a` at its place in an increasing list, unless it is there already. -/
def insertList (a : α) : List α → List α
  | [] => [a]
  | b :: l =>
    match compare a b with
    | .lt => a :: b :: l
    | .eq => b :: l
    | .gt => b :: insertList a l

@[simp] theorem mem_toList {s : SortedSet α} {a : α} : a ∈ s.toList ↔ a ∈ s := Iff.rfl

@[simp] theorem not_mem_empty {a : α} : ¬ a ∈ (empty : SortedSet α) := List.not_mem_nil

variable [Std.LawfulEqOrd α]

/-- The inserted element is the only new one. -/
theorem mem_insertList {a x : α} {l : List α} : x ∈ insertList a l ↔ x = a ∨ x ∈ l := by
  induction l with
  | nil => simp [insertList]
  | cons b l ih =>
    rw [insertList]
    split
    · simp
    · next h => simp [Std.LawfulEqOrd.eq_of_compare h]
    · simp only [List.mem_cons, ih]
      constructor
      · rintro (h | h | h) <;> simp [h]
      · rintro (h | h | h) <;> simp [h]

variable [Std.TransOrd α]

/-- Insertion keeps the order. -/
theorem pairwise_insertList {a : α} {l : List α} (h : l.Pairwise fun a b => compare a b = .lt) :
    (insertList a l).Pairwise fun a b => compare a b = .lt := by
  induction l with
  | nil => simp [insertList]
  | cons b l ih =>
    rw [insertList]
    have hb := List.pairwise_cons.mp h
    split
    · next hlt =>
      refine List.pairwise_cons.mpr ⟨fun x hx => ?_, h⟩
      rcases List.mem_cons.mp hx with rfl | hx
      · exact hlt
      · exact Std.TransCmp.lt_trans hlt (hb.1 x hx)
    · exact h
    · next hgt =>
      refine List.pairwise_cons.mpr ⟨fun x hx => ?_, ih hb.2⟩
      rcases mem_insertList.mp hx with rfl | hx
      · exact Std.OrientedCmp.gt_iff_lt.mp hgt
      · exact hb.1 x hx

/-- The set with `a` added. -/
def insert (s : SortedSet α) (a : α) : SortedSet α :=
  ⟨insertList a s.toList, pairwise_insertList s.increasing⟩

/-- The set without `a`. -/
def erase [DecidableEq α] (s : SortedSet α) (a : α) : SortedSet α :=
  ⟨s.toList.filter (· ≠ a), s.increasing.sublist List.filter_sublist⟩

/-- The elements of a list, in order and without repetition. -/
def ofList (l : List α) : SortedSet α := l.foldl insert empty

/-- The set of the elements of either set. -/
def union (s t : SortedSet α) : SortedSet α := t.toList.foldl insert s

@[simp] theorem mem_insert {s : SortedSet α} {a x : α} : x ∈ s.insert a ↔ x = a ∨ x ∈ s := mem_insertList

omit [Std.LawfulEqOrd α] [Std.TransOrd α] in
@[simp] theorem mem_erase [DecidableEq α] {s : SortedSet α} {a x : α} : x ∈ s.erase a ↔ x ∈ s ∧ x ≠ a := by
  show x ∈ s.toList.filter _ ↔ _
  simp

theorem mem_foldl_insert {l : List α} {s : SortedSet α} {x : α} : x ∈ l.foldl insert s ↔ x ∈ s ∨ x ∈ l := by
  induction l generalizing s with
  | nil => simp
  | cons a l ih =>
    rw [List.foldl_cons, ih, mem_insert, List.mem_cons]
    constructor
    · rintro ((h | h) | h) <;> simp [h]
    · rintro (h | h | h) <;> simp [h]

/-- A set made from a list holds the list's elements. -/
@[simp] theorem mem_ofList {l : List α} {x : α} : x ∈ ofList l ↔ x ∈ l := by
  simp [ofList, mem_foldl_insert]

@[simp] theorem mem_union {s t : SortedSet α} {x : α} : x ∈ s.union t ↔ x ∈ s ∨ x ∈ t := mem_foldl_insert

end
end SortedSet
end PlaceRoute
