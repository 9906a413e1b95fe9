import PlaceRoute.Sorted.Map

/-!
# Members of sorted sets and entries of sorted maps

Listings hold no element and no key twice (`SortedSet.nodup`, `SortedMap.keys_nodup`); neither does a list of items that are
numbered by their place (`nodup_map_of_index`). Sets with the same members and maps with the same lookups are equal
(`SortedSet.ext_mem`, `SortedMap.ext_get?`). An entry of a map is what a lookup finds (`SortedMap.get?_eq_some_iff`), after an
insertion as before (`SortedMap.mem_toList_insert`). A map made from a list that gives each key one value holds the entries of the
list (`SortedMap.mem_toList_ofList`), and one made from the listing of a map is that map (`SortedMap.ofList_toList`).
-/

namespace PlaceRoute

/-- The places of items that know their place. -/
theorem map_eq_range_of_index {α : Type} {items : List α} (index : α → Nat)
    (h : ∀ i x, items[i]? = some x → index x = i) : items.map index = List.range items.length := by
  refine List.ext_getElem (by simp) fun i hi _ => ?_
  rw [List.getElem_map, List.getElem_range]
  exact h i _ (List.getElem?_eq_getElem (by simpa using hi))

/-- The items of a list with one more item at its end. -/
theorem getElem?_concat_eq_some_iff {α : Type} {l : List α} {x y : α} {i : Nat} :
    (l ++ [x])[i]? = some y ↔ l[i]? = some y ∨ i = l.length ∧ y = x := by
  rw [List.getElem?_append]
  split
  · next hi => exact (or_iff_left fun h => Nat.ne_of_lt hi h.1).symm
  · next hi =>
    rw [List.getElem?_eq_none (Nat.le_of_not_lt hi), List.getElem?_singleton]
    by_cases heq : i - l.length = 0
    · have hi : i = l.length := by omega
      simp [hi, eq_comm]
    · have hi : i ≠ l.length := by omega
      simp [heq, hi]

/-- Items that know their place are all different. -/
theorem nodup_map_of_index {α : Type} {items : List α} (index : α → Nat)
    (h : ∀ i x, items[i]? = some x → index x = i) : (items.map index).Nodup := by
  rw [map_eq_range_of_index index h]
  exact List.nodup_range

/-- A map after entries are written to it. -/
theorem getElem?_foldl_insert {α β : Type} [Ord α] [Std.TransOrd α] [Std.LawfulEqOrd α] {entries : List (α × β)}
    {t : Std.TreeMap α β} {k : α} {o : Option β}
    (hmem : ∀ {v : β}, (k, v) ∈ entries → o = some v) (hnot : (∀ v, (k, v) ∉ entries) → t[k]? = o) :
    (entries.foldl (fun m x => m.insert x.1 x.2) t)[k]? = o := by
  induction entries generalizing t with
  | nil => exact hnot (by simp)
  | cons x entries ih =>
    rw [List.foldl_cons]
    refine ih (fun hv => hmem (List.mem_cons_of_mem _ hv)) fun hrest => ?_
    rw [Std.TreeMap.getElem?_insert]
    by_cases hk : x.1 = k
    · simp [hk, hmem (v := x.2) (by simp [← hk])]
    · rw [if_neg (by simpa using hk)]
      refine hnot fun v hv => ?_
      rcases List.mem_cons.mp hv with rfl | hv
      · exact hk rfl
      · exact hrest v hv

theorem SortedSet.nodup {α : Type} [Ord α] [Std.LawfulEqOrd α] (s : SortedSet α) : s.toList.Nodup :=
  s.increasing.imp fun {x y} h heq => by
    rw [heq] at h
    exact absurd (h.symm.trans Std.ReflCmp.compare_self) (by decide)

/-- Lists in strictly increasing order that hold the same are one list. -/
theorem eq_of_increasing {α κ : Type} [Ord κ] [Std.TransOrd κ] (key : α → κ) {l l' : List α}
    (h : l.Pairwise fun a b => compare (key a) (key b) = .lt) (h' : l'.Pairwise fun a b => compare (key a) (key b) = .lt)
    (hmem : ∀ x, x ∈ l ↔ x ∈ l') : l = l' := by
  have hirrefl {a b : κ} (hab : compare a b = .lt) (hba : compare b a = .lt) : False := by
    have hself : compare a a = .eq := Std.ReflCmp.compare_self
    rw [Std.TransCmp.lt_trans hab hba] at hself
    cases hself
  have hnodup {l : List α} (h : l.Pairwise fun a b => compare (key a) (key b) = .lt) : l.Nodup :=
    h.imp fun {a b} hab (heq : a = b) => by
      subst heq
      exact hirrefl hab hab
  have hperm : l.Perm l' := (List.perm_ext_iff_of_nodup (hnodup h) (hnodup h')).mpr hmem
  exact hperm.eq_of_pairwise (fun a b _ _ hab hba => (hirrefl hab hba).elim) h h'

theorem SortedSet.ext_mem {α : Type} [Ord α] [Std.TransOrd α] {s t : SortedSet α} (h : ∀ x, x ∈ s ↔ x ∈ t) : s = t :=
  SortedSet.ext_toList (eq_of_increasing id s.increasing t.increasing h)

namespace SortedMap

variable {α β : Type} [Ord α] [Std.LawfulEqOrd α] {m : SortedMap α β} {k x : α} {v y : β}

theorem keys_nodup (m : SortedMap α β) : m.keys.Nodup :=
  List.pairwise_map.mpr (m.increasing.imp fun {x y} h heq => by
    rw [heq] at h
    exact absurd (h.symm.trans Std.ReflCmp.compare_self) (by decide))

/-- An entry with a key above all others goes to the end. -/
theorem toList_insert_of_lt [Std.TransOrd α] (h : ∀ e ∈ m.toList, compare e.1 k = .lt) :
    (m.insert k v).toList = m.toList ++ [(k, v)] := by
  show insertList k v m.toList = _
  generalize m.toList = l at h ⊢
  induction l with
  | nil => rfl
  | cons e l ih =>
    have hgt : compare k e.1 = .gt := Std.OrientedCmp.gt_iff_lt.mpr (h e List.mem_cons_self)
    rw [insertList, hgt, List.cons_append, ← ih fun e' he' => h e' (List.mem_cons_of_mem e he')]

/-- Entries in increasing order come one behind the other. -/
theorem toList_foldl_insert [Std.TransOrd α] {l : List (α × β)}
    (h : (m.toList ++ l).Pairwise fun a b => compare a.1 b.1 = .lt) :
    (l.foldl (fun m e => m.insert e.1 e.2) m).toList = m.toList ++ l := by
  induction l generalizing m with
  | nil => exact (List.append_nil _).symm
  | cons e l ih =>
    have hlast : (m.insert e.1 e.2).toList = m.toList ++ [e] :=
      toList_insert_of_lt fun x hx => (List.pairwise_append.mp h).2.2 x hx e List.mem_cons_self
    rw [List.append_cons, ← hlast] at h
    rw [List.foldl_cons, ih h, hlast, List.append_assoc, List.singleton_append]

/-- The map that is made from the entries of a map. -/
theorem ofList_toList [Std.TransOrd α] (m : SortedMap α β) : ofList m.toList = m :=
  ext_toList (toList_foldl_insert (m := empty) m.increasing)

variable [DecidableEq α]

/-- What a lookup finds in a list with increasing keys is its entries. -/
theorem lookup_eq_some_iff {l : List (α × β)} (h : l.Pairwise fun a b => compare a.1 b.1 = .lt) :
    lookup k l = some v ↔ (k, v) ∈ l := by
  induction l with
  | nil => simp [lookup]
  | cons e l ih =>
    obtain ⟨a, b⟩ := e
    obtain ⟨hfirst, hrest⟩ := List.pairwise_cons.mp h
    rw [lookup, List.mem_cons, Prod.mk.injEq]
    split
    · next heq =>
      subst heq
      constructor
      · intro hb
        exact Or.inl ⟨rfl, (Option.some.inj hb).symm⟩
      · rintro (⟨-, rfl⟩ | hmem)
        · rfl
        · have hlt := hfirst _ hmem
          exact absurd (hlt.symm.trans Std.ReflCmp.compare_self) (by decide)
    · next hne =>
      rw [ih hrest]
      exact ⟨Or.inr, fun h => h.elim (fun h => absurd h.1.symm hne) id⟩

theorem get?_eq_some_iff : m.get? k = some v ↔ (k, v) ∈ m.toList := lookup_eq_some_iff m.increasing

/-- Maps with the same lookups are one map. -/
theorem ext_get? [Std.TransOrd α] {m m' : SortedMap α β} (h : ∀ k, m.get? k = m'.get? k) : m = m' :=
  ext_toList (eq_of_increasing Prod.fst m.increasing m'.increasing fun e => by
    rw [← get?_eq_some_iff, ← get?_eq_some_iff, h])

theorem contains_insert_eq_false_iff [Std.TransOrd α] :
    (m.insert k v).contains x = false ↔ k ≠ x ∧ m.contains x = false := by
  unfold contains
  rw [get?_insert]
  by_cases h : k = x <;> simp [h]

/-- Insertions declare the keys of the list and no other. -/
theorem contains_foldl_insert_eq_false_iff [Std.TransOrd α] {l : List (α × β)} :
    (l.foldl (fun m e => m.insert e.1 e.2) m).contains x = false ↔ (∀ e ∈ l, e.1 ≠ x) ∧ m.contains x = false := by
  induction l generalizing m with
  | nil => simp
  | cons e l ih => rw [List.foldl_cons, ih, contains_insert_eq_false_iff, List.forall_mem_cons, and_left_comm, and_assoc]

/-- A key has one entry. -/
theorem toList_inj (h : (k, v) ∈ m.toList) (h' : (k, y) ∈ m.toList) : v = y :=
  Option.some.inj ((get?_eq_some_iff.mpr h).symm.trans (get?_eq_some_iff.mpr h'))

theorem get?_filter_eq_some_iff {p : α → β → Bool} : (m.filter p).get? k = some v ↔ m.get? k = some v ∧ p k v = true := by
  rw [get?_eq_some_iff, get?_eq_some_iff]
  exact List.mem_filter

theorem mem_toList_insert [Std.TransOrd α] :
    (x, y) ∈ (m.insert k v).toList ↔ x = k ∧ y = v ∨ x ≠ k ∧ (x, y) ∈ m.toList := by
  rw [← get?_eq_some_iff, get?_insert, ← get?_eq_some_iff]
  by_cases h : k = x
  · subst h
    simp [eq_comm]
  · simp [h, Ne.symm h]

section
variable [Std.TransOrd α] {l : List (α × β)}

theorem mem_of_mem_foldl_insert (h : (x, y) ∈ (l.foldl (fun m e => m.insert e.1 e.2) m).toList) :
    (x, y) ∈ l ∨ (x, y) ∈ m.toList := by
  induction l generalizing m with
  | nil => exact Or.inr h
  | cons e l ih =>
    rcases ih h with h | h
    · exact Or.inl (List.mem_cons_of_mem _ h)
    · rcases mem_toList_insert.mp h with ⟨rfl, rfl⟩ | ⟨-, h⟩
      · exact Or.inl List.mem_cons_self
      · exact Or.inr h

theorem exists_mem_foldl_insert (h : (∃ y, (x, y) ∈ l) ∨ ∃ y, (x, y) ∈ m.toList) :
    ∃ y, (x, y) ∈ (l.foldl (fun m e => m.insert e.1 e.2) m).toList := by
  induction l generalizing m with
  | nil => exact h.resolve_left (by simp)
  | cons e l ih =>
    refine ih ?_
    by_cases hx : x = e.1
    · exact Or.inr ⟨e.2, mem_toList_insert.mpr (Or.inl ⟨hx, rfl⟩)⟩
    · rcases h with ⟨y, hy⟩ | ⟨y, hy⟩
      · rcases List.mem_cons.mp hy with rfl | hy
        · exact absurd rfl hx
        · exact Or.inl ⟨y, hy⟩
      · exact Or.inr ⟨y, mem_toList_insert.mpr (Or.inr ⟨hx, hy⟩)⟩

/-- A map made from a list that gives each key one value. -/
theorem mem_toList_ofList (hl : ∀ {x : α} {y y' : β}, (x, y) ∈ l → (x, y') ∈ l → y = y') :
    (x, y) ∈ (ofList l).toList ↔ (x, y) ∈ l := by
  refine ⟨fun h => (mem_of_mem_foldl_insert h).resolve_right List.not_mem_nil, fun h => ?_⟩
  obtain ⟨y', hy'⟩ := exists_mem_foldl_insert (m := empty) (Or.inl ⟨y, h⟩)
  rw [hl h ((mem_of_mem_foldl_insert hy').resolve_right List.not_mem_nil)]
  exact hy'

end

end SortedMap
end PlaceRoute
