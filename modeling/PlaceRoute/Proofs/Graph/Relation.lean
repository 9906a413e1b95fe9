import Mathlib.Data.List.Nodup
import PlaceRoute.Graph.Relation
import PlaceRoute.Proofs.Sorted
import PlaceRoute.Proofs.Success

/-!
# Pairs of a relation

The pairs of a relation are the values of its keys (`Relation.mem_pairs`). Adding and removing a pair changes this pair and
no other (`Relation.mem_valuesOf_add`, `Relation.mem_valuesOf_remove`), and `mapValues` maps the values
(`Relation.mem_valuesOf_mapValues`). So keys with values stay declared (`Relation.Covered`) and a key with one value keeps it
(`Relation.Functional`).
-/

namespace PlaceRoute
namespace Relation

variable {κ ν ω ε : Type} [Ord κ] [Ord ν] [Ord ω] [DecidableEq κ] {r r' : Relation κ ν} {k k' : κ} {v v' : ν}

theorem not_mem_valuesOf_new {keys : SortedSet κ} : v ∉ (new keys : Relation κ ν).valuesOf k := List.not_mem_nil

section
variable [Std.LawfulEqOrd κ]

/-- The values at a key of a map of sets. -/
theorem mem_getD_iff {m : SortedMap κ (SortedSet ν)} :
    v ∈ (m.get? k).getD ∅ ↔ ∃ vs, (k, vs) ∈ m.toList ∧ v ∈ vs := by
  cases hget : m.get? k with
  | none =>
    refine iff_of_false List.not_mem_nil ?_
    rintro ⟨vs, hvs, -⟩
    rw [SortedMap.get?_eq_some_iff.mpr hvs] at hget
    cases hget
  | some vs =>
    constructor
    · exact fun hv => ⟨vs, SortedMap.get?_eq_some_iff.mp hget, hv⟩
    · rintro ⟨vs', hvs', hv⟩
      rw [SortedMap.get?_eq_some_iff.mpr hvs'] at hget
      rwa [← Option.some.inj hget]

theorem mem_pairs : (k, v) ∈ r.pairs ↔ v ∈ r.valuesOf k := by
  unfold pairs valuesOf
  rw [SortedSet.mem_toList, mem_getD_iff]
  simp only [List.mem_flatMap, List.mem_map, SortedSet.mem_toList, Prod.mk.injEq]
  constructor
  · rintro ⟨⟨k', vs⟩, hvs, v', hv', rfl, rfl⟩
    exact ⟨vs, hvs, hv'⟩
  · rintro ⟨vs, hvs, hv⟩
    exact ⟨(k, vs), hvs, v, hv, rfl, rfl⟩

omit [DecidableEq κ] in
theorem nodup_pairs [Std.LawfulEqOrd ν] : r.pairs.Nodup := by
  refine List.nodup_flatMap.mpr ⟨fun e _ => (SortedSet.nodup e.2).map fun _ _ h => (Prod.mk.inj h).2, ?_⟩
  refine (List.pairwise_map.mp r.forward.keys_nodup).imp fun {a b} hne x hxa hxb => ?_
  obtain ⟨v, -, rfl⟩ := List.mem_map.mp hxa
  obtain ⟨w, -, hw⟩ := List.mem_map.mp hxb
  exact hne (Prod.mk.inj hw).1.symm

omit [DecidableEq κ] [Std.LawfulEqOrd κ] in
theorem length_pairs : r.pairs.length = r.size := by
  unfold pairs size SortedMap.values
  simp only [List.length_flatMap, List.length_map, List.sum_eq_foldl, List.foldl_map, SortedSet.size]

end

variable [DecidableEq ν] [DecidableEq ω] [Std.TransOrd κ] [Std.LawfulEqOrd κ] [Std.TransOrd ν] [Std.LawfulEqOrd ν]
  [Std.TransOrd ω] [Std.LawfulEqOrd ω]

theorem mem_valuesOf_add : v' ∈ (r.add k v).valuesOf k' ↔ k' = k ∧ v' = v ∨ v' ∈ r.valuesOf k' := by
  unfold add valuesOf SortedMap.alter
  rw [SortedMap.get?_insert, SortedSet.mem_toList, SortedSet.mem_toList]
  by_cases hk : k = k'
  · subst hk
    simp
  · simp [hk, Ne.symm hk]

theorem insert_eq_ok (h : r.insert k v = .ok r') : r' = r.add k v := by
  unfold insert at h
  split at h
  · exact (Except.ok.inj h).symm
  · cases h

omit [Std.TransOrd ν] [Std.LawfulEqOrd ν] in
/-- Removing a value at a key from a map of sets. -/
theorem mem_getD_detach {m : SortedMap κ (SortedSet ν)} :
    v' ∈ ((detach m k v).get? k').getD ∅ ↔ v' ∈ (m.get? k').getD ∅ ∧ ¬ (k' = k ∧ v' = v) := by
  have hnone {v' : ν} : v' ∉ (none : Option (SortedSet ν)).getD ∅ := List.not_mem_nil
  unfold detach
  split
  · next hget =>
    by_cases hk : k' = k
    · subst hk
      rw [hget]
      exact iff_of_false hnone fun h => hnone h.1
    · exact (and_iff_left (by simp [hk])).symm
  · next vs hget =>
    have hsome {v' : ν} {vs : SortedSet ν} : v' ∈ (some vs).getD ∅ ↔ v' ∈ vs := Iff.rfl
    by_cases hk : k' = k
    · subst hk
      rw [hget, hsome]
      split
      · next hempty =>
        rw [SortedMap.get?_erase, if_pos rfl]
        refine iff_of_false hnone fun h => ?_
        have hmem : v' ∈ vs.erase v := SortedSet.mem_erase.mpr ⟨h.1, fun hv => h.2 ⟨rfl, hv⟩⟩
        exact List.ne_nil_of_mem hmem (List.isEmpty_iff.mp hempty)
      · rw [SortedMap.get?_insert, if_pos rfl, hsome, SortedSet.mem_erase]
        simp
    · have hsame : ((if (vs.erase v).isEmpty = true then m.erase k else m.insert k (vs.erase v)).get? k') =
          m.get? k' := by
        split
        · rw [SortedMap.get?_erase, if_neg (Ne.symm hk)]
        · rw [SortedMap.get?_insert, if_neg (Ne.symm hk)]
      rw [hsame]
      exact (and_iff_left (by simp [hk])).symm

theorem mem_valuesOf_remove :
    v' ∈ (r.remove k v).2.valuesOf k' ↔ v' ∈ r.valuesOf k' ∧ ¬ (k' = k ∧ v' = v) := by
  unfold remove
  split
  · exact mem_getD_detach
  · next hnot =>
    refine (and_iff_left_of_imp fun h heq => ?_).symm
    rw [heq.1, heq.2] at h
    exact hnot h

theorem remove_fst : (r.remove k v).1 = true ↔ v ∈ r.valuesOf k := by
  unfold remove
  split
  · next h => exact iff_of_true rfl h
  · next h => exact iff_of_false (by simp) h

theorem mapError_insert_eq_ok {refuse : Error → ε} (h : (r.insert k v).mapError refuse = .ok r') : r' = r.add k v :=
  insert_eq_ok (mapError_eq_ok h)

theorem insert_ok (h : r.declares k = true) : r.insert k v = .ok (r.add k v) := if_pos h

omit [DecidableEq ν] [Std.TransOrd ν] [Std.LawfulEqOrd ν] in
/-- The values of a mapped relation. -/
theorem mem_valuesOf_mapValues {refuse : Error → ε} {f : ν → Except ε ω} {q : Relation κ ω}
    (h : r.mapValues refuse f = .ok q) {w : ω} : w ∈ q.valuesOf k ↔ ∃ v ∈ r.valuesOf k, f v = .ok w := by
  have hfold (l : List (κ × ν)) (q₀ q : Relation κ ω)
      (h : l.foldlM (fun out e => do (out.insert e.1 (← f e.2)).mapError refuse) q₀ = .ok q) {k : κ} {w : ω} :
      w ∈ q.valuesOf k ↔ w ∈ q₀.valuesOf k ∨ ∃ v, (k, v) ∈ l ∧ f v = .ok w := by
    induction l generalizing q₀ with
    | nil =>
      cases h
      simp
    | cons e l ih =>
      obtain ⟨k₁, v₁⟩ := e
      rw [List.foldlM_cons] at h
      obtain ⟨q₁, hq₁, h⟩ := bind_eq_ok h
      obtain ⟨w₁, hw₁, hq₁⟩ := bind_eq_ok hq₁
      obtain rfl := mapError_insert_eq_ok hq₁
      rw [ih _ h, mem_valuesOf_add]
      simp only [List.mem_cons, Prod.mk.injEq]
      constructor
      · rintro ((⟨rfl, rfl⟩ | hw) | ⟨v, hv, hw⟩)
        · exact Or.inr ⟨v₁, Or.inl ⟨rfl, rfl⟩, hw₁⟩
        · exact Or.inl hw
        · exact Or.inr ⟨v, Or.inr hv, hw⟩
      · rintro (hw | ⟨v, ⟨rfl, rfl⟩ | hv, hw⟩)
        · exact Or.inl (Or.inr hw)
        · exact Or.inl (Or.inl ⟨rfl, Except.ok.inj (hw.symm.trans hw₁)⟩)
        · exact Or.inr ⟨v, hv, hw⟩
  rw [hfold r.pairs _ _ h]
  simp only [mem_pairs]
  exact or_iff_right not_mem_valuesOf_new

/-! ## Declared keys and single values -/

/-- Every key that has a value is declared. -/
def Covered (r : Relation κ ν) : Prop := ∀ k, ∀ v ∈ r.valuesOf k, r.declares k = true

/-- No key has two values. -/
def Functional (r : Relation κ ν) : Prop := ∀ k, ∀ v ∈ r.valuesOf k, ∀ v' ∈ r.valuesOf k, v' = v

omit [DecidableEq ν] [Std.TransOrd κ] [Std.LawfulEqOrd κ] [Std.TransOrd ν] [Std.LawfulEqOrd ν] in
theorem covered_new {keys : SortedSet κ} : (new keys : Relation κ ν).Covered := fun _ _ hv => absurd hv not_mem_valuesOf_new

omit [DecidableEq ν] [Std.TransOrd κ] [Std.LawfulEqOrd κ] [Std.TransOrd ν] [Std.LawfulEqOrd ν] in
theorem functional_new {keys : SortedSet κ} : (new keys : Relation κ ν).Functional := fun _ _ hv => absurd hv not_mem_valuesOf_new

theorem Covered.add (hr : r.Covered) (hk : r.declares k = true) : (r.add k v).Covered := by
  intro k' v' hv'
  rcases mem_valuesOf_add.mp hv' with ⟨rfl, -⟩ | hv'
  · exact hk
  · exact hr k' v' hv'

/-- A pair may be added at a key without values. -/
theorem Functional.add (hr : r.Functional) (hfree : r.valuesOf k = []) : (r.add k v).Functional := by
  intro k' v' hv' w' hw'
  rw [mem_valuesOf_add] at hv' hw'
  by_cases hk : k' = k
  · subst hk
    rw [hfree] at hv' hw'
    obtain ⟨-, rfl⟩ := hv'.resolve_right List.not_mem_nil
    exact (hw'.resolve_right List.not_mem_nil).2
  · exact hr k' v' (hv'.resolve_left fun h => hk h.1) w' (hw'.resolve_left fun h => hk h.1)

theorem keys_remove : (r.remove k v).2.keys = r.keys := by
  unfold remove
  split <;> rfl

theorem Covered.remove (hr : r.Covered) : (r.remove k v).2.Covered := by
  intro k' v' hv'
  unfold declares
  rw [keys_remove]
  exact hr k' v' (mem_valuesOf_remove.mp hv').1

theorem Functional.remove (hr : r.Functional) : (r.remove k v).2.Functional := fun k' v' hv' w' hw' =>
  hr k' v' (mem_valuesOf_remove.mp hv').1 w' (mem_valuesOf_remove.mp hw').1

omit [DecidableEq ν] [Std.TransOrd ν] [Std.LawfulEqOrd ν] in
/-- A map of the values adds the new pairs one after the other; since their keys are declared, none is refused. -/
theorem Covered.mapValues_eq (hr : r.Covered) (refuse : Error → ε) (f : ν → Except ε ω) :
    r.mapValues refuse f = r.pairs.foldlM (fun out e => do return out.add e.1 (← f e.2)) (new r.keys) := by
  have hl : ∀ e ∈ r.pairs, r.declares e.1 = true := fun e he => hr e.1 e.2 (mem_pairs.mp he)
  have hq : (new r.keys : Relation κ ω).keys = r.keys := rfl
  unfold Relation.mapValues
  generalize (new r.keys : Relation κ ω) = q at hq ⊢
  generalize r.pairs = l at hl ⊢
  induction l generalizing q with
  | nil => rfl
  | cons e l ih =>
    obtain ⟨k, v⟩ := e
    obtain ⟨hk, hl⟩ := List.forall_mem_cons.mp hl
    rw [List.foldlM_cons, List.foldlM_cons]
    dsimp only
    cases hv : f v with
    | error e => rfl
    | ok w =>
      have hdeclared : q.declares k = true := by
        unfold declares
        rwa [hq]
      rw [ok_bind, ok_bind, insert_ok hdeclared]
      exact ih (q.add k w) hq hl

omit [DecidableEq ν] [Std.TransOrd ν] [Std.LawfulEqOrd ν] in
theorem Covered.mapValues_ok {f : ν → Except ε ω} (hr : r.Covered) (refuse : Error → ε)
    (h : ∀ k, ∀ v ∈ r.valuesOf k, ∃ w, f v = .ok w) : ∃ q, r.mapValues refuse f = .ok q := by
  rw [hr.mapValues_eq]
  refine foldlM_ok (fun q e he => ?_) _
  obtain ⟨w, hw⟩ := h e.1 e.2 (mem_pairs.mp he)
  refine ⟨q.add e.1 w, ?_⟩
  rw [hw]
  rfl

section
variable {refuse : Error → ε} {f : ν → Except ε ω} {q : Relation κ ω} (h : r.mapValues refuse f = .ok q)
include h

omit [DecidableEq ν] [Std.TransOrd ν] [Std.LawfulEqOrd ν] in
theorem keys_mapValues : q.keys = r.keys :=
  foldlM_induction (fun out : Relation κ ω => out.keys = r.keys) rfl (fun out _ out' _ hout h => by
    obtain ⟨w, -, h⟩ := bind_eq_ok h
    obtain rfl := mapError_insert_eq_ok h
    exact hout) h

omit [DecidableEq ν] [Std.TransOrd ν] [Std.LawfulEqOrd ν] in
theorem Covered.mapValues (hr : r.Covered) : q.Covered := by
  intro k w hw
  obtain ⟨v, hv, -⟩ := (mem_valuesOf_mapValues h).mp hw
  unfold declares
  rw [keys_mapValues h]
  exact hr k v hv

omit [DecidableEq ν] [Std.TransOrd ν] [Std.LawfulEqOrd ν] in
theorem Functional.mapValues (hr : r.Functional) : q.Functional := by
  intro k w hw w' hw'
  obtain ⟨v, hv, hfv⟩ := (mem_valuesOf_mapValues h).mp hw
  obtain ⟨v', hv', hfv'⟩ := (mem_valuesOf_mapValues h).mp hw'
  rw [hr k v hv v' hv', hfv] at hfv'
  exact (Except.ok.inj hfv').symm

end

end Relation
end PlaceRoute
