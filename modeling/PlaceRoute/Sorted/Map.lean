import PlaceRoute.Sorted.Set

/-!
# Finite maps kept in key order

A `SortedMap` is a list of entries with strictly increasing keys, so a map has one representation and its listings
are in key order. `get?_insert` and `get?_erase` say what the operations hold.
-/

namespace PlaceRoute

/-- A finite map as the list of its entries, keys strictly increasing. -/
structure SortedMap (α β : Type) [Ord α] where
  /-- The entries in key order. -/
  toList : List (α × β)
  /-- Each key lies strictly below all later ones. -/
  increasing : toList.Pairwise fun a b => compare a.1 b.1 = .lt

namespace SortedMap
section
variable {α β γ : Type} [Ord α]

/-- The map without entries. -/
def empty : SortedMap α β := ⟨[], .nil⟩

instance : EmptyCollection (SortedMap α β) := ⟨empty⟩
instance : Inhabited (SortedMap α β) := ⟨empty⟩

/-- Equal listings are equal maps. -/
@[ext] theorem ext_toList {s t : SortedMap α β} (h : s.toList = t.toList) : s = t := by
  cases s; cases t; cases h; rfl

instance [DecidableEq α] [DecidableEq β] : DecidableEq (SortedMap α β) := fun s t =>
  decidable_of_iff (s.toList = t.toList) ⟨ext_toList, fun h => h ▸ rfl⟩

/-- The number of entries. -/
def size (m : SortedMap α β) : Nat := m.toList.length

/-- Whether there is no entry. -/
def isEmpty (m : SortedMap α β) : Bool := m.toList.isEmpty

/-- The keys in increasing order. -/
def keys (m : SortedMap α β) : List α := m.toList.map (·.1)

/-- The values in key order. -/
def values (m : SortedMap α β) : List β := m.toList.map (·.2)

/-- The value of the first entry with key `k`. -/
def lookup [DecidableEq α] (k : α) : List (α × β) → Option β
  | [] => none
  | (a, b) :: l => if a = k then some b else lookup k l

/-- The value at key `k`. -/
def get? [DecidableEq α] (m : SortedMap α β) (k : α) : Option β := lookup k m.toList

/-- Whether `k` is a key. -/
def contains [DecidableEq α] (m : SortedMap α β) (k : α) : Bool := (m.get? k).isSome

/-- Puts an entry at its place in a list with increasing keys, over the entry of the same key. -/
def insertList (k : α) (v : β) : List (α × β) → List (α × β)
  | [] => [(k, v)]
  | (a, b) :: l =>
    match compare k a with
    | .lt => (k, v) :: (a, b) :: l
    | .eq => (k, v) :: l
    | .gt => (a, b) :: insertList k v l

/-- The same keys with other values. -/
def map (f : α → β → γ) (m : SortedMap α β) : SortedMap α γ :=
  ⟨m.toList.map fun e => (e.1, f e.1 e.2), List.pairwise_map.mpr m.increasing⟩

/-- The entries that satisfy `p`. -/
def filter (p : α → β → Bool) (m : SortedMap α β) : SortedMap α β :=
  ⟨m.toList.filter fun e => p e.1 e.2, m.increasing.sublist List.filter_sublist⟩

/-- The map without key `k`. -/
def erase [DecidableEq α] (m : SortedMap α β) (k : α) : SortedMap α β := m.filter fun a _ => a ≠ k

variable [Std.TransOrd α] [Std.LawfulEqOrd α]

omit [Std.TransOrd α] in
theorem mem_keys_insertList {k x : α} {v : β} {l : List (α × β)} :
    (∃ y, (x, y) ∈ insertList k v l) ↔ x = k ∨ ∃ y, (x, y) ∈ l := by
  induction l with
  | nil => simp [insertList]
  | cons e l ih =>
    obtain ⟨a, b⟩ := e
    rw [insertList]
    split
    · simp [exists_or]
    · next h =>
      have := Std.LawfulEqOrd.eq_of_compare h
      subst this
      simp [exists_or]
    · simp only [List.mem_cons, exists_or, ih]
      exact or_left_comm

/-- Insertion keeps the key order. -/
theorem pairwise_insertList {k : α} {v : β} {l : List (α × β)}
    (h : l.Pairwise fun a b => compare a.1 b.1 = .lt) :
    (insertList k v l).Pairwise fun a b => compare a.1 b.1 = .lt := by
  induction l with
  | nil => simp [insertList]
  | cons e l ih =>
    obtain ⟨a, b⟩ := e
    rw [insertList]
    have hb := List.pairwise_cons.mp h
    split
    · next hlt =>
      refine List.pairwise_cons.mpr ⟨fun x hx => ?_, h⟩
      rcases List.mem_cons.mp hx with rfl | hx
      · exact hlt
      · exact Std.TransCmp.lt_trans hlt (hb.1 x hx)
    · next heq =>
      have := Std.LawfulEqOrd.eq_of_compare heq
      subst this
      exact List.pairwise_cons.mpr ⟨hb.1, hb.2⟩
    · next hgt =>
      refine List.pairwise_cons.mpr ⟨fun x hx => ?_, ih hb.2⟩
      rcases mem_keys_insertList.mp ⟨x.2, hx⟩ with h | ⟨y, h⟩
      · rw [h]; exact Std.OrientedCmp.gt_iff_lt.mp hgt
      · exact hb.1 (x.1, y) h

/-- The map with `v` at key `k`. -/
def insert (m : SortedMap α β) (k : α) (v : β) : SortedMap α β :=
  ⟨insertList k v m.toList, pairwise_insertList m.increasing⟩

/-- The map with the value at `k` changed by `f`, which sees `none` when there is none. -/
def alter [DecidableEq α] (m : SortedMap α β) (k : α) (f : Option β → β) : SortedMap α β :=
  m.insert k (f (m.get? k))

/-- The entries of a list; of two entries with one key the later stands. -/
def ofList (l : List (α × β)) : SortedMap α β := l.foldl (fun m e => m.insert e.1 e.2) empty

variable [DecidableEq α]

omit [Std.TransOrd α] in
theorem lookup_insertList {k x : α} {v : β} {l : List (α × β)} :
    lookup x (insertList k v l) = if k = x then some v else lookup x l := by
  induction l with
  | nil => simp [insertList, lookup]
  | cons e l ih =>
    obtain ⟨a, b⟩ := e
    rw [insertList]
    split
    · simp [lookup]
    · next h =>
      have := Std.LawfulEqOrd.eq_of_compare h
      subst this
      by_cases hx : k = x <;> simp [lookup, hx]
    · next h =>
      have hne : k ≠ a := by
        rintro rfl
        simp at h
      by_cases hx : a = x
      · subst hx; simp [lookup, hne]
      · simp [lookup, hx, ih]

/-- Looking up after an insertion. -/
theorem get?_insert {m : SortedMap α β} {k x : α} {v : β} :
    (m.insert k v).get? x = if k = x then some v else m.get? x := lookup_insertList

omit [Ord α] [Std.TransOrd α] [Std.LawfulEqOrd α] in
theorem lookup_filter_ne {k x : α} {l : List (α × β)} :
    lookup x (l.filter fun e => e.1 ≠ k) = if k = x then none else lookup x l := by
  induction l with
  | nil => simp [lookup]
  | cons e l ih =>
    obtain ⟨a, b⟩ := e
    by_cases ha : a = k
    · subst ha
      by_cases hx : a = x <;> simp_all [lookup]
    · by_cases hx : a = x
      · subst hx; simp [lookup, ha, Ne.symm ha]
      · simp [lookup, ha, hx]
        simpa using ih

omit [Std.TransOrd α] [Std.LawfulEqOrd α] in
/-- Looking up after a removal. -/
theorem get?_erase {m : SortedMap α β} {k x : α} :
    (m.erase k).get? x = if k = x then none else m.get? x := lookup_filter_ne

end
end SortedMap
end PlaceRoute
