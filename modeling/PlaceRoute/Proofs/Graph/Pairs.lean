import Mathlib.Data.Set.Card
import PlaceRoute.Proofs.Graph.Relation

/-!
# Relations as sets of pairs

A relation `Represents` a set of pairs over its declared keys if both indices hold exactly these pairs and neither holds a key or a
value without a partner. So the set is all there is to a relation (`Relation.Represents.unique`), and the check that a relation can
make of itself accepts no other relations (`Relation.isConsistent_iff`). Insertions, removals and maps of the values do to
the relation what they do to the set (`Relation.Represents.add`, `Relation.Represents.remove`, `Relation.Represents.mapValues`).
`Relation.Reached` holds of the relations that come about in this way: `Relation.reached_acts_as_set`.
-/

namespace PlaceRoute

theorem SortedSet.isEmpty_eq_false_iff {α : Type} [Ord α] {s : SortedSet α} : s.isEmpty = false ↔ ∃ x, x ∈ s :=
  List.isEmpty_eq_false_iff_exists_mem

namespace Relation

/-! ## Maps of sets -/

section
variable {α β : Type} [Ord α] [DecidableEq α] [Ord β] {m m' : SortedMap α (SortedSet β)} {x : α} {y : β} {ys : SortedSet β}

/-- No set of the map is empty. -/
def Tidy (m : SortedMap α (SortedSet β)) : Prop := ∀ x ys, m.get? x = some ys → ys.isEmpty = false

theorem tidy_empty : Tidy (∅ : SortedMap α (SortedSet β)) := nofun

theorem Tidy.erase (h : Tidy m) : Tidy (m.erase x) := by
  intro x' ys' hget
  rw [SortedMap.get?_erase] at hget
  split at hget
  · cases hget
  · exact h x' ys' hget

/-- In a tidy map a key has a set exactly if it has an element. -/
theorem Tidy.contains_iff (h : Tidy m) : m.contains x = true ↔ ∃ y, y ∈ (m.get? x).getD ∅ := by
  unfold SortedMap.contains
  cases hget : m.get? x with
  | none => exact iff_of_false (by simp) fun ⟨y, hy⟩ => List.not_mem_nil hy
  | some ys => exact iff_of_true rfl (SortedSet.isEmpty_eq_false_iff.mp (h x ys hget))

variable [Std.LawfulEqOrd α]

theorem Tidy.isEmpty_iff (h : Tidy m) : m.isEmpty = true ↔ ∀ x y, y ∉ (m.get? x).getD ∅ := by
  constructor
  · intro hempty x y hy
    obtain ⟨ys, hys, -⟩ := mem_getD_iff.mp hy
    rw [List.isEmpty_iff.mp hempty] at hys
    cases hys
  · intro hnone
    refine List.isEmpty_iff.mpr (List.eq_nil_iff_forall_not_mem.mpr fun e he => ?_)
    have hget : m.get? e.1 = some e.2 := SortedMap.get?_eq_some_iff.mpr he
    obtain ⟨y, hy⟩ := h.contains_iff.mp (show m.contains e.1 = true by rw [SortedMap.contains, hget]; rfl)
    exact hnone e.1 y hy

variable [Std.TransOrd α]

theorem Tidy.insert (h : Tidy m) (hys : ys.isEmpty = false) : Tidy (m.insert x ys) := by
  intro x' ys' hget
  rw [SortedMap.get?_insert] at hget
  split at hget
  · rwa [← Option.some.inj hget]
  · exact h x' ys' hget

theorem Tidy.detach [DecidableEq β] (h : Tidy m) : Tidy (detach m x y) := by
  unfold Relation.detach
  split
  · exact h
  · split
    · exact h.erase
    · next hnot => exact h.insert (Bool.eq_false_iff.mpr hnot)

/-- Tidy maps with the same elements are one map. -/
theorem Tidy.ext [Std.TransOrd β] (h : Tidy m) (h' : Tidy m')
    (hmem : ∀ x y, y ∈ (m.get? x).getD ∅ ↔ y ∈ (m'.get? x).getD ∅) : m = m' := by
  have hnone {m : SortedMap α (SortedSet β)} (h : Tidy m) {x : α} : m.get? x = none ↔ ∀ y, y ∉ (m.get? x).getD ∅ := by
    rw [← not_exists, ← h.contains_iff, SortedMap.contains, Bool.not_eq_true, Option.isSome_eq_false_iff, Option.isNone_iff_eq_none]
  refine SortedMap.ext_get? fun x => ?_
  cases hget : m.get? x with
  | none =>
    refine ((hnone h').mpr fun y hy => ?_).symm
    exact (hnone h).mp hget y ((hmem x y).mpr hy)
  | some ys =>
    cases hget' : m'.get? x with
    | none =>
      rw [(hnone h).mpr fun y hy => (hnone h').mp hget' y ((hmem x y).mp hy)] at hget
      cases hget
    | some ys' =>
      refine congrArg some (SortedSet.ext_mem fun y => ?_)
      have hy := hmem x y
      rwa [hget, hget'] at hy

end

section
variable {κ ν ω ε : Type} [Ord κ] [Ord ν] [Ord ω] [DecidableEq κ] [DecidableEq ν] [DecidableEq ω] [Std.LawfulEqOrd κ]
  [Std.LawfulEqOrd ν] [Std.LawfulEqOrd ω] {keys : SortedSet κ} {S : Set (κ × ν)} {r r' : Relation κ ν} {k : κ} {v : ν}

/-! ## The set of a relation -/

/-- The relation declares `keys`, and both its indices hold the pairs of `S`, which are over these keys, and nothing else. -/
structure Represents (r : Relation κ ν) (keys : SortedSet κ) (S : Set (κ × ν)) : Prop where
  keys_eq : r.keys = keys
  declared : ∀ x ∈ S, x.1 ∈ keys
  mem_valuesOf : ∀ {k v}, v ∈ r.valuesOf k ↔ (k, v) ∈ S
  mem_keysOf : ∀ {k v}, k ∈ r.keysOf v ↔ (k, v) ∈ S
  forward : Tidy r.forward
  inverse : Tidy r.inverse

omit [Std.LawfulEqOrd κ] [Std.LawfulEqOrd ν] in
theorem represents_new : (new keys : Relation κ ν).Represents keys ∅ where
  keys_eq := rfl
  declared := nofun
  mem_valuesOf := iff_of_false List.not_mem_nil id
  mem_keysOf := iff_of_false List.not_mem_nil id
  forward := tidy_empty
  inverse := tidy_empty

namespace Represents

omit [Std.LawfulEqOrd ν] in
theorem mem_pairs {x : κ × ν} (h : r.Represents keys S) : x ∈ r.pairs ↔ x ∈ S := Relation.mem_pairs.trans h.mem_valuesOf

omit [Std.LawfulEqOrd κ] [Std.LawfulEqOrd ν] in
theorem covered (h : r.Represents keys S) : r.Covered := by
  intro k v hv
  unfold declares
  rw [h.keys_eq]
  exact decide_eq_true (h.declared (k, v) (h.mem_valuesOf.mp hv))

/-- A relation is what it represents. -/
theorem unique [Std.TransOrd κ] [Std.TransOrd ν] (h : r.Represents keys S) (h' : r'.Represents keys S) : r = r' := by
  have hforward : r.forward = r'.forward :=
    h.forward.ext h'.forward fun k v => h.mem_valuesOf.trans h'.mem_valuesOf.symm
  have hinverse : r.inverse = r'.inverse := h.inverse.ext h'.inverse fun v k => h.mem_keysOf.trans h'.mem_keysOf.symm
  have hkeys := h.keys_eq.trans h'.keys_eq.symm
  cases r
  cases r'
  cases hkeys
  cases hforward
  cases hinverse
  rfl

omit [Std.LawfulEqOrd ν] in
theorem finite (h : r.Represents keys S) : S.Finite :=
  r.pairs.finite_toSet.subset fun _ hx => h.mem_pairs.mpr hx

theorem size (h : r.Represents keys S) : r.size = S.ncard := by
  have hS : S = r.pairs.toFinset := Set.ext fun x => by rw [List.coe_toFinset]; exact h.mem_pairs.symm
  rw [hS, Set.ncard_coe_finset, List.toFinset_card_of_nodup nodup_pairs, length_pairs]

omit [Std.LawfulEqOrd ν] in
theorem isEmpty (h : r.Represents keys S) : r.isEmpty = true ↔ S = ∅ := by
  refine h.forward.isEmpty_iff.trans ?_
  rw [Set.eq_empty_iff_forall_notMem]
  exact ⟨fun hnone x hx => hnone x.1 x.2 (h.mem_valuesOf.mpr hx), fun hnone k v hv => hnone (k, v) (h.mem_valuesOf.mp hv)⟩

omit [Std.LawfulEqOrd κ] [Std.LawfulEqOrd ν] in
theorem containsKey (h : r.Represents keys S) : r.containsKey k = true ↔ ∃ v, (k, v) ∈ S :=
  h.forward.contains_iff.trans (exists_congr fun _ => h.mem_valuesOf)

end Represents

omit [DecidableEq κ] [DecidableEq ν] [Std.LawfulEqOrd κ] [Std.LawfulEqOrd ν] in
/-- Pairs are listed by key and then by value. -/
theorem pairwise_pairs : r.pairs.Pairwise fun a b => compare a.1 b.1 = .lt ∨ a.1 = b.1 ∧ compare a.2 b.2 = .lt := by
  refine List.pairwise_flatMap.mpr ⟨fun e _ => ?_, r.forward.increasing.imp fun {a b} hlt x hx y hy => ?_⟩
  · exact List.pairwise_map.mpr (e.2.increasing.imp fun hlt => Or.inr ⟨rfl, hlt⟩)
  · obtain ⟨v, -, rfl⟩ := List.mem_map.mp hx
    obtain ⟨w, -, rfl⟩ := List.mem_map.mp hy
    exact Or.inl hlt

/-! ## The check of a relation -/

/-- Whether every key of an index has partners, each of which has it as a partner in the other index. -/
def mirrors {α β : Type} [Ord α] [Ord β] [DecidableEq α] [DecidableEq β] (m : SortedMap α (SortedSet β))
    (m' : SortedMap β (SortedSet α)) : Bool :=
  m.toList.all fun (x, ys) => !ys.isEmpty && ys.toList.all fun y => (m'.get? y).any fun xs => decide (x ∈ xs)

/-- Whether the keys in use are declared and both indices hold the same pairs, with no key or value on its own. -/
def isConsistent (r : Relation κ ν) : Bool :=
  (r.forward.keys.all r.declares) && mirrors r.forward r.inverse && mirrors r.inverse r.forward

omit [Std.LawfulEqOrd ν] in
theorem mirrors_iff {m : SortedMap κ (SortedSet ν)} {m' : SortedMap ν (SortedSet κ)} :
    mirrors m m' = true ↔ Tidy m ∧ ∀ k v, v ∈ (m.get? k).getD ∅ → k ∈ (m'.get? v).getD ∅ := by
  have hany {k : κ} {v : ν} : ((m'.get? v).any fun ks => decide (k ∈ ks)) = true ↔ k ∈ (m'.get? v).getD ∅ := by
    cases m'.get? v with
    | none => exact iff_of_false (by simp) List.not_mem_nil
    | some ks => exact decide_eq_true_iff
  unfold mirrors
  simp only [List.all_eq_true, Bool.and_eq_true, Bool.not_eq_true', hany]
  constructor
  · intro h
    refine ⟨fun k vs hget => (h (k, vs) (SortedMap.get?_eq_some_iff.mp hget)).1, fun k v hv => ?_⟩
    obtain ⟨vs, hvs, hv⟩ := mem_getD_iff.mp hv
    exact (h (k, vs) hvs).2 v hv
  · rintro ⟨htidy, hback⟩ ⟨k, vs⟩ hvs
    exact ⟨htidy k vs (SortedMap.get?_eq_some_iff.mpr hvs), fun v hv => hback k v (mem_getD_iff.mpr ⟨vs, hvs, hv⟩)⟩

/-- The check accepts exactly the relations that stand for a set of pairs. -/
theorem isConsistent_iff : r.isConsistent = true ↔ ∃ S, r.Represents r.keys S := by
  have hkeys : r.forward.keys.all r.declares = true ↔ ∀ k ∈ r.forward.keys, k ∈ r.keys := by
    simp only [List.all_eq_true, declares, decide_eq_true_iff]
  unfold isConsistent
  rw [Bool.and_eq_true, Bool.and_eq_true, mirrors_iff, mirrors_iff, hkeys]
  constructor
  · rintro ⟨⟨hdeclared, hforward, hto⟩, hinverse, hback⟩
    refine ⟨{x | x.2 ∈ r.valuesOf x.1}, rfl, fun x hx => ?_, Iff.rfl, ⟨hback _ _, hto _ _⟩, hforward, hinverse⟩
    obtain ⟨vs, hvs, -⟩ := mem_getD_iff.mp hx
    exact hdeclared x.1 (List.mem_map.mpr ⟨(x.1, vs), hvs, rfl⟩)
  · rintro ⟨S, h⟩
    refine ⟨⟨fun k hk => ?_, h.forward, fun k v hv => h.mem_keysOf.mpr (h.mem_valuesOf.mp hv)⟩, h.inverse, fun v k hk =>
      h.mem_valuesOf.mpr (h.mem_keysOf.mp hk)⟩
    obtain ⟨⟨k, vs⟩, hvs, rfl⟩ := List.mem_map.mp hk
    have hget : r.forward.get? k = some vs := SortedMap.get?_eq_some_iff.mpr hvs
    obtain ⟨v, hv⟩ := h.containsKey.mp (show r.forward.contains k = true by rw [SortedMap.contains, hget]; rfl)
    exact h.declared (k, v) hv

/-! ## Operations on the set -/

variable [Std.TransOrd κ] [Std.TransOrd ν] [Std.TransOrd ω]

/-- The relation read from the other side, without declared keys. -/
def flip (r : Relation κ ν) : Relation ν κ := ⟨∅, r.inverse, r.forward⟩

theorem tidy_add_forward (h : Tidy r.forward) : Tidy (r.add k v).forward :=
  h.insert (SortedSet.isEmpty_eq_false_iff.mpr ⟨v, SortedSet.mem_insert.mpr (Or.inl rfl)⟩)

namespace Represents

theorem add (h : r.Represents keys S) (hk : k ∈ keys) : (r.add k v).Represents keys (S ∪ {(k, v)}) where
  keys_eq := h.keys_eq
  declared x hx := by
    rcases hx with hx | rfl
    · exact h.declared x hx
    · exact hk
  mem_valuesOf {k' v'} := by
    rw [mem_valuesOf_add, h.mem_valuesOf, Set.mem_union, Set.mem_singleton_iff, Prod.mk.injEq, or_comm]
  mem_keysOf {k' v'} := by
    have hflip : k' ∈ (r.add k v).keysOf v' ↔ v' = v ∧ k' = k ∨ k' ∈ r.keysOf v' := mem_valuesOf_add (r := r.flip)
    rw [hflip, h.mem_keysOf, Set.mem_union, Set.mem_singleton_iff, Prod.mk.injEq, or_comm, and_comm]
  forward := tidy_add_forward h.forward
  inverse := tidy_add_forward (r := r.flip) h.inverse

theorem insert_eq (h : r.Represents keys S) : r.insert k v = if k ∈ keys then .ok (r.add k v) else .error .undeclaredKey := by
  unfold Relation.insert declares
  simp only [decide_eq_true_eq, h.keys_eq]

theorem remove (h : r.Represents keys S) : (r.remove k v).2.Represents keys (S \ {(k, v)}) where
  keys_eq := keys_remove.trans h.keys_eq
  declared x hx := h.declared x hx.1
  mem_valuesOf {k' v'} := by
    rw [mem_valuesOf_remove, h.mem_valuesOf, Set.mem_sdiff, Set.mem_singleton_iff, Prod.mk.injEq]
  mem_keysOf {k' v'} := by
    rw [Set.mem_sdiff, Set.mem_singleton_iff, Prod.mk.injEq, ← h.mem_keysOf, and_comm (a := k' = k)]
    unfold Relation.remove
    split
    · exact mem_getD_detach
    · next hnot =>
      -- Nothing is removed, and there is nothing to remove.
      refine (and_iff_left_of_imp fun hk' heq => hnot ?_).symm
      rw [h.mem_valuesOf, ← heq.1, ← heq.2]
      exact h.mem_keysOf.mp hk'
  forward := by
    unfold Relation.remove
    split
    · exact h.forward.detach
    · exact h.forward
  inverse := by
    unfold Relation.remove
    split
    · exact h.inverse.detach
    · exact h.inverse

omit [Ord ν] [DecidableEq ν] [Std.LawfulEqOrd ν] [Std.TransOrd ν] in
/-- By induction on the pairs that are left, from what was built before. -/
theorem foldlM_add {q₀ q : Relation κ ω} {T : Set (κ × ω)} {f : ν → Except ε ω} {l : List (κ × ν)}
    (h : q₀.Represents keys T) (hl : ∀ x ∈ l, x.1 ∈ keys)
    (hrun : l.foldlM (fun out (k, v) => do return out.add k (← f v)) q₀ = .ok q) :
    q.Represents keys (T ∪ {y | ∃ v, (y.1, v) ∈ l ∧ f v = .ok y.2}) := by
  induction l generalizing q₀ T with
  | nil =>
    cases hrun
    simpa using h
  | cons x l ih =>
    obtain ⟨hx, hl⟩ := List.forall_mem_cons.mp hl
    rw [List.foldlM_cons] at hrun
    obtain ⟨q₁, hq₁, hrun⟩ := bind_eq_ok hrun
    obtain ⟨w, hw, hq₁⟩ := bind_eq_ok hq₁
    cases hq₁
    have hset : T ∪ {y | ∃ v, (y.1, v) ∈ x :: l ∧ f v = .ok y.2} =
        T ∪ {(x.1, w)} ∪ {y | ∃ v, (y.1, v) ∈ l ∧ f v = .ok y.2} := by
      ext ⟨k, w'⟩
      simp only [Set.mem_union, Set.mem_ofPred_eq, Set.mem_singleton_iff, Prod.mk.injEq, List.mem_cons]
      constructor
      · rintro (hT | ⟨v, rfl | hv, hw'⟩)
        · exact Or.inl (Or.inl hT)
        · exact Or.inl (Or.inr ⟨rfl, Except.ok.inj (hw'.symm.trans hw)⟩)
        · exact Or.inr ⟨v, hv, hw'⟩
      · rintro ((hT | ⟨rfl, rfl⟩) | ⟨v, hv, hw'⟩)
        · exact Or.inl hT
        · exact Or.inr ⟨x.2, Or.inl rfl, hw⟩
        · exact Or.inr ⟨v, Or.inr hv, hw'⟩
    rw [hset]
    exact ih (h.add hx) hl hrun

omit [Std.TransOrd ν] [Std.LawfulEqOrd ν] in
theorem mapValues {q : Relation κ ω} {refuse : Error → ε} {f : ν → Except ε ω} (h : r.Represents keys S)
    (hrun : r.mapValues refuse f = .ok q) : q.Represents keys {y | ∃ v, (y.1, v) ∈ S ∧ f v = .ok y.2} := by
  rw [h.covered.mapValues_eq, h.keys_eq] at hrun
  have hfold := foldlM_add represents_new (fun x hx => h.declared x (h.mem_pairs.mp hx)) hrun
  rw [Set.empty_union] at hfold
  simpa only [h.mem_pairs] using hfold

omit [Std.LawfulEqOrd ν] [Std.TransOrd ν] in
/-- A map of the values fails at the first value, in the order of the pairs, at which the function does. -/
theorem exists_of_mapValues_error {refuse : Error → ε} {f : ν → Except ε ω} {e : ε} (h : r.Represents keys S)
    (hrun : r.mapValues refuse f = .error e) :
    ∃ before x after, r.pairs = before ++ x :: after ∧ (∀ y ∈ before, ∃ w, f y.2 = .ok w) ∧ f x.2 = .error e := by
  rw [h.covered.mapValues_eq] at hrun
  generalize (new r.keys : Relation κ ω) = q at hrun
  generalize r.pairs = l at hrun ⊢
  induction l generalizing q with
  | nil => cases hrun
  | cons x l ih =>
    obtain ⟨k, v⟩ := x
    rw [List.foldlM_cons] at hrun
    dsimp only at hrun
    cases hv : f v with
    | error e' =>
      rw [hv] at hrun
      cases hrun
      exact ⟨[], (k, v), l, rfl, List.forall_mem_nil _, hv⟩
    | ok w =>
      rw [hv] at hrun
      obtain ⟨before, y, after, rfl, hbefore, hy⟩ := ih (q.add k w) hrun
      exact ⟨(k, v) :: before, y, after, rfl, List.forall_mem_cons.mpr ⟨⟨w, hv⟩, hbefore⟩, hy⟩

end Represents

end

/-! ## Sequences of operations -/

/-- The relations over `keys` that come about from the empty one by operations, each with the set of pairs that comes about in the
same way. Operations that fail give no relation, so the one before stays. -/
inductive Reached {κ : Type} [Ord κ] [DecidableEq κ] [Std.TransOrd κ] [Std.LawfulEqOrd κ] (keys : SortedSet κ) :
    {ν : Type} → [Ord ν] → [DecidableEq ν] → [Std.TransOrd ν] → [Std.LawfulEqOrd ν] → Relation κ ν → Set (κ × ν) → Prop
  | new {ν : Type} [Ord ν] [DecidableEq ν] [Std.TransOrd ν] [Std.LawfulEqOrd ν] : Reached keys (new keys : Relation κ ν) ∅
  | insert {ν : Type} [Ord ν] [DecidableEq ν] [Std.TransOrd ν] [Std.LawfulEqOrd ν] {r r' : Relation κ ν} {S : Set (κ × ν)}
      (k : κ) (v : ν) : Reached keys r S → r.insert k v = .ok r' → Reached keys r' (S ∪ {(k, v)})
  | remove {ν : Type} [Ord ν] [DecidableEq ν] [Std.TransOrd ν] [Std.LawfulEqOrd ν] {r : Relation κ ν} {S : Set (κ × ν)}
      (k : κ) (v : ν) : Reached keys r S → Reached keys (r.remove k v).2 (S \ {(k, v)})
  | mapValues {ν ω ε : Type} [Ord ν] [DecidableEq ν] [Std.TransOrd ν] [Std.LawfulEqOrd ν] [Ord ω] [DecidableEq ω]
      [Std.TransOrd ω] [Std.LawfulEqOrd ω] {r : Relation κ ν} {q : Relation κ ω} {S : Set (κ × ν)} (refuse : Error → ε)
      (f : ν → Except ε ω) :
      Reached keys r S → r.mapValues refuse f = .ok q → Reached keys q {y | ∃ v, (y.1, v) ∈ S ∧ f v = .ok y.2}

section
variable {κ ν : Type} [Ord κ] [Ord ν] [DecidableEq κ] [DecidableEq ν] [Std.TransOrd κ] [Std.LawfulEqOrd κ] [Std.TransOrd ν]
  [Std.LawfulEqOrd ν] {keys : SortedSet κ} {S : Set (κ × ν)} {r : Relation κ ν}

theorem Reached.represents (h : Reached keys r S) : r.Represents keys S := by
  induction h with
  | new => exact represents_new
  | insert k v _ hrun ih =>
    rw [ih.insert_eq] at hrun
    split at hrun
    · next hk =>
      cases hrun
      exact ih.add hk
    · cases hrun
  | remove k v _ ih => exact ih.remove
  | mapValues refuse f _ hrun ih => exact ih.mapValues hrun

/-- What a relation answers, in terms of its set of pairs. -/
structure Answers (r : Relation κ ν) (keys : SortedSet κ) (S : Set (κ × ν)) : Prop where
  declares : ∀ k, r.declares k = true ↔ k ∈ keys
  valuesOf : ∀ k, (r.valuesOf k).Pairwise (fun v w => compare v w = .lt) ∧ ∀ v, v ∈ r.valuesOf k ↔ (k, v) ∈ S
  keysOf : ∀ v, (r.keysOf v).Pairwise (fun k l => compare k l = .lt) ∧ ∀ k, k ∈ r.keysOf v ↔ (k, v) ∈ S
  pairs : r.pairs.Pairwise (fun x y => compare x.1 y.1 = .lt ∨ x.1 = y.1 ∧ compare x.2 y.2 = .lt) ∧ ∀ x, x ∈ r.pairs ↔ x ∈ S
  size : S.Finite ∧ r.size = S.ncard
  isEmpty : r.isEmpty = true ↔ S = ∅
  containsKey : ∀ k, r.containsKey k = true ↔ ∃ v, (k, v) ∈ S

omit [Std.TransOrd κ] [Std.TransOrd ν] in
theorem Represents.answers (h : r.Represents keys S) : r.Answers keys S where
  declares k := by rw [Relation.declares, decide_eq_true_iff, h.keys_eq]
  valuesOf k := ⟨SortedSet.increasing _, fun _ => h.mem_valuesOf⟩
  keysOf v := ⟨SortedSet.increasing _, fun _ => h.mem_keysOf⟩
  pairs := ⟨pairwise_pairs, fun _ => h.mem_pairs⟩
  size := ⟨h.finite, h.size⟩
  isEmpty := h.isEmpty
  containsKey _ := h.containsKey

/-- A relation is a finite set of pairs over declared keys. However it came about, both its indices hold the pairs of the set that
came about in the same way, which makes it the only one that does, and the check of the relation accepts it. Every question is
answered from this set. An insertion adds a pair if its key is declared and fails otherwise, a removal takes one away and says
whether it was there, and a map of the values maps the pairs or fails at the first one that it cannot map. -/
theorem reached_acts_as_set (h : Reached keys r S) :
    r.Represents keys S ∧ (∀ r' : Relation κ ν, r'.Represents keys S → r' = r) ∧ r.isConsistent = true ∧ r.Answers keys S ∧
    (∀ k v, if k ∈ keys then ∃ r', r.insert k v = .ok r' ∧ r'.Represents keys (S ∪ {(k, v)})
      else r.insert k v = .error .undeclaredKey) ∧
    (∀ k v, ((r.remove k v).1 = true ↔ (k, v) ∈ S) ∧ (r.remove k v).2.Represents keys (S \ {(k, v)})) ∧
    ∀ {ω ε : Type} [Ord ω] [DecidableEq ω] [Std.TransOrd ω] [Std.LawfulEqOrd ω] (refuse : Error → ε) (f : ν → Except ε ω),
      (∀ refuse' : Error → ε, r.mapValues refuse f =
        r.pairs.foldlM (fun q x => do (q.insert x.1 (← f x.2)).mapError refuse') (new keys)) ∧
      match r.mapValues refuse f with
      | .ok q => (∀ x ∈ S, ∃ w, f x.2 = .ok w) ∧ q.Represents keys {y | ∃ v, (y.1, v) ∈ S ∧ f v = .ok y.2}
      | .error e => ∃ before x after, r.pairs = before ++ x :: after ∧ (∀ y ∈ before, ∃ w, f y.2 = .ok w) ∧
          f x.2 = .error e := by
  have hr := h.represents
  refine ⟨hr, fun r' hr' => hr'.unique hr, isConsistent_iff.mpr ⟨S, hr.keys_eq ▸ hr⟩, hr.answers, fun k v => ?_, fun k v => ?_,
    fun refuse f => ⟨fun refuse' => ?_, ?_⟩⟩
  · rw [hr.insert_eq]
    split
    · next hk => exact ⟨_, rfl, hr.add hk⟩
    · rfl
  · exact ⟨remove_fst.trans hr.mem_valuesOf, hr.remove⟩
  · rw [hr.covered.mapValues_eq refuse, ← hr.covered.mapValues_eq refuse', Relation.mapValues, hr.keys_eq]
  · cases hrun : r.mapValues refuse f with
    | ok q =>
      refine ⟨fun x hx => ?_, hr.mapValues hrun⟩
      obtain ⟨q₁, q₂, hstep⟩ := exists_of_foldlM hrun (hr.mem_pairs.mpr hx)
      obtain ⟨w, hw, -⟩ := bind_eq_ok hstep
      exact ⟨w, hw⟩
    | error e => exact hr.exists_of_mapValues_error hrun

/-- Three pairs of which two come to be one. -/
theorem tenths_act_as_set : ∃ (r : Relation String Nat) (S : Set (String × Nat)),
    Reached (.ofList ["in", "out"]) r S ∧ r.pairs = [("in", 1), ("out", 2)] ∧ S.ncard = 2 ∧ r.isConsistent = true ∧
    r.insert "up" 1 = .error .undeclaredKey ∧ (r.remove "in" 1).2.Represents (.ofList ["in", "out"]) (S \ {("in", 1)}) := by
  let tenth (v : Nat) : Except Nat Nat := if v = 0 then .error v else .ok (v / 10)
  let r₁ : Relation String Nat := ((new (.ofList ["in", "out"])).add "out" 20).add "in" 10
  have h₁ : Reached (.ofList ["in", "out"]) r₁ _ := .insert "in" 10 (.insert "out" 20 .new rfl) rfl
  have h₂ : Reached (.ofList ["in", "out"]) (r₁.add "in" 11) _ := .insert "in" 11 h₁ rfl
  have hfacts : (((r₁.add "in" 11).mapValues (fun _ => 0) tenth).toOption.any
      fun r => decide (r.pairs = [("in", 1), ("out", 2)])) = true := by
    decide
  obtain ⟨r, hrun, hpairs⟩ := exists_ok_of_any hfacts
  have hpairs := of_decide_eq_true hpairs
  have h := Reached.mapValues _ tenth h₂ hrun
  obtain ⟨-, -, hcheck, hanswers, hinsert, hremove, -⟩ := reached_acts_as_set h
  have hsize : r.size = 2 := by rw [← length_pairs, hpairs]; rfl
  exact ⟨r, _, h, hpairs, hanswers.size.2.symm.trans hsize, hcheck, (if_neg (by decide)).mp (hinsert "up" 1), (hremove "in" 1).2⟩

end

end Relation
end PlaceRoute
