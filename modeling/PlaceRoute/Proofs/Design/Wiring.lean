import PlaceRoute.Design.Basic
import PlaceRoute.Proofs.Sorted
import PlaceRoute.Proofs.Success

/-!
# Designs whose operations and values agree

What every assembled design satisfies (`Design.WellWired`): operations and values are numbered by their place, an
operation produces the value whose source it is, and it reads a value exactly where the value lists it as a destination.
`wellWired_new` derives this from what each tie adds to the wiring (`Wiring.Sound.add`).
-/

namespace PlaceRoute
namespace Design

/-- Operations and values are numbered by their place and name each other. -/
structure WellWired (d : Design) : Prop where
  op_id : ∀ {i : OpId} {op : Operation}, d.op? i = some op → op.id = i
  value_id : ∀ {i : ValueId} {v : Value}, d.value? i = some v → v.id = i
  src : ∀ {v : Value}, v ∈ d.values → ∃ op, d.op? v.src = some op ∧ op.output = some v.id
  output : ∀ {op : Operation} {i : ValueId}, op ∈ d.operations → op.output = some i →
    ∃ v, d.value? i = some v ∧ v.src = op.id
  dst : ∀ {v : Value} {t : Terminal}, v ∈ d.values → t ∈ v.dsts →
    ∃ op, d.op? t.op = some op ∧ (t.operand, v.id) ∈ op.inputs.toList
  input : ∀ {op : Operation} {i : Nat} {j : ValueId}, op ∈ d.operations → (i, j) ∈ op.inputs.toList →
    ∃ v, d.value? j = some v ∧ ⟨op.id, i⟩ ∈ v.dsts
  dsts_ne_nil : ∀ {v : Value}, v ∈ d.values → v.dsts ≠ []
  dsts_nodup : ∀ {v : Value}, v ∈ d.values → v.dsts.Nodup

namespace WellWired

variable {d : Design} (hd : d.WellWired)
include hd

theorem op?_of_mem {op : Operation} (h : op ∈ d.operations) : d.op? op.id = some op := by
  obtain ⟨i, hi⟩ := List.getElem?_of_mem h
  rw [hd.op_id hi]
  exact hi

theorem value?_of_mem {v : Value} (h : v ∈ d.values) : d.value? v.id = some v := by
  obtain ⟨i, hi⟩ := List.getElem?_of_mem h
  rw [hd.value_id hi]
  exact hi

/-- Values are told apart by their numbers. -/
theorem value_inj {v v' : Value} (h : v ∈ d.values) (h' : v' ∈ d.values) (hid : v.id = v'.id) : v = v' :=
  Option.some.inj ((hd.value?_of_mem h).symm.trans (hid ▸ hd.value?_of_mem h'))

theorem nodup_operations : (d.operations.map (·.id)).Nodup := nodup_map_of_index _ fun _ _ => hd.op_id

theorem nodup_values : (d.values.map (·.id)).Nodup := nodup_map_of_index _ fun _ _ => hd.value_id

/-- Values are told apart by their sources. -/
theorem src_inj {v w : Value} (hv : v ∈ d.values) (hw : w ∈ d.values) (h : v.src = w.src) : v = w := by
  obtain ⟨op, hop, hout⟩ := hd.src hv
  obtain ⟨op', hop', hout'⟩ := hd.src hw
  rw [h, hop'] at hop
  cases hop
  exact hd.value_inj hv hw (Option.some.inj (hout.symm.trans hout'))

end WellWired

/-! ## Wiring -/

/-- The sources and destinations are operations, and the drivers are the sources of the fanout. -/
structure Wiring.Sound (names : List String) (w : Wiring) : Prop where
  src_lt : ∀ {src : OpId} {dsts : SortedSet Terminal}, (src, dsts) ∈ w.fanout.toList → src < names.length
  dsts_ne_nil : ∀ {src : OpId} {dsts : SortedSet Terminal}, (src, dsts) ∈ w.fanout.toList → dsts.toList ≠ []
  dst_lt : ∀ {src : OpId} {dsts : SortedSet Terminal} {t : Terminal}, (src, dsts) ∈ w.fanout.toList → t ∈ dsts →
    t.op < names.length
  driver : ∀ {src : OpId} {dsts : SortedSet Terminal} {t : Terminal}, (src, dsts) ∈ w.fanout.toList → t ∈ dsts →
    w.drivers.get? t = some src

section
variable {names : List String} {w w' : Wiring} {tie : NamedTie}

theorem Wiring.sound_empty (names : List String) : Wiring.Sound names ⟨∅, ∅⟩ where
  src_lt h := absurd h List.not_mem_nil
  dsts_ne_nil h := absurd h List.not_mem_nil
  dst_lt h := absurd h List.not_mem_nil
  driver h := absurd h List.not_mem_nil

theorem Wiring.find_lt {name : String} {id : OpId} (h : Wiring.find names name = .ok id) : id < names.length := by
  unfold Wiring.find at h
  split at h
  · next hid =>
    cases h
    exact (List.idxOf?_eq_some_iff.mp hid).1
  · cases h

theorem Wiring.mem_of_find {name : String} {id : OpId} (h : Wiring.find names name = .ok id) : name ∈ names := by
  unfold Wiring.find at h
  split at h
  · next hid =>
    obtain ⟨hlt, hname, -⟩ := List.idxOf?_eq_some_iff.mp hid
    exact hname ▸ List.getElem_mem hlt
  · cases h

/-- A tie gives its source a destination that no other source has. -/
theorem Wiring.add_eq_ok (h : w.add names tie = .ok w') : ∃ src dst, src < names.length ∧ dst < names.length ∧
    (∀ other, w.drivers.get? ⟨dst, tie.operand⟩ = some other → other = src) ∧
    w' = ⟨w.fanout.alter src fun dsts => (dsts.getD ∅).insert ⟨dst, tie.operand⟩,
      w.drivers.insert ⟨dst, tie.operand⟩ src⟩ := by
  unfold Wiring.add at h
  obtain ⟨src, hsrc, h⟩ := bind_eq_ok h
  obtain ⟨dst, hdst, h⟩ := bind_eq_ok h
  dsimp only at h
  refine ⟨src, dst, find_lt hsrc, find_lt hdst, fun other hother => ?_, ?_⟩
  · by_contra hne
    rw [hother] at h
    dsimp only at h
    rw [if_pos hne] at h
    cases h
  · split at h
    · split at h
      · cases h
      · cases h; rfl
    · cases h; rfl

theorem Wiring.Sound.add (h : w.Sound names) (hadd : w.add names tie = .ok w') : w'.Sound names := by
  obtain ⟨src, dst, hsrc, hdst, hfree, hw'⟩ := Wiring.add_eq_ok hadd
  have hmem {s : OpId} {dsts : SortedSet Terminal} (hs : (s, dsts) ∈ w'.fanout.toList) :
      s = src ∧ dsts = ((w.fanout.get? src).getD ∅).insert ⟨dst, tie.operand⟩ ∨
      s ≠ src ∧ (s, dsts) ∈ w.fanout.toList := by
    rw [hw'] at hs
    exact SortedMap.mem_toList_insert.mp hs
  have hdrivers (t : Terminal) : w'.drivers.get? t =
      if (⟨dst, tie.operand⟩ : Terminal) = t then some src else w.drivers.get? t := by
    rw [hw']
    exact SortedMap.get?_insert
  have hold {t : Terminal} (ht : t ∈ ((w.fanout.get? src).getD ∅)) :
      ∃ dsts, (src, dsts) ∈ w.fanout.toList ∧ t ∈ dsts := by
    cases hget : w.fanout.get? src with
    | none =>
      rw [hget] at ht
      exact absurd ht List.not_mem_nil
    | some dsts =>
      rw [hget] at ht
      exact ⟨dsts, SortedMap.get?_eq_some_iff.mp hget, ht⟩
  constructor
  · intro s dsts hs
    rcases hmem hs with ⟨rfl, -⟩ | ⟨-, hs⟩
    · exact hsrc
    · exact h.src_lt hs
  · intro s dsts hs
    rcases hmem hs with ⟨-, rfl⟩ | ⟨-, hs⟩
    · exact List.ne_nil_of_mem (SortedSet.mem_insert.mpr (Or.inl rfl))
    · exact h.dsts_ne_nil hs
  · intro s dsts t hs ht
    rcases hmem hs with ⟨-, rfl⟩ | ⟨-, hs⟩
    · rcases SortedSet.mem_insert.mp ht with rfl | ht
      · exact hdst
      · obtain ⟨dsts, hs, ht⟩ := hold ht
        exact h.dst_lt hs ht
    · exact h.dst_lt hs ht
  · intro s dsts t hs ht
    rw [hdrivers]
    split
    · next heq =>
      rcases hmem hs with ⟨rfl, -⟩ | ⟨hne, hs⟩
      · rfl
      · exact absurd (hfree s (heq ▸ h.driver hs ht)) hne
    · next hne =>
      rcases hmem hs with ⟨rfl, rfl⟩ | ⟨-, hs⟩
      · rcases SortedSet.mem_insert.mp ht with rfl | ht
        · exact absurd rfl hne
        · obtain ⟨dsts, hs, ht⟩ := hold ht
          exact h.driver hs ht
      · exact h.driver hs ht

/-- The values of a wiring, by number. -/
theorem Wiring.getElem?_values {i : ValueId} {v : Value} (h : w.values[i]? = some v) :
    v.id = i ∧ ∃ dsts, (v.src, dsts) ∈ w.fanout.toList ∧ v.dsts = dsts.toList := by
  unfold Wiring.values at h
  rw [List.getElem?_map, List.getElem?_zipIdx, Option.map_map, Option.map_eq_some_iff] at h
  obtain ⟨⟨src, dsts⟩, hget, rfl⟩ := h
  exact ⟨Nat.zero_add i, dsts, List.mem_of_getElem? hget, rfl⟩

/-- Values are told apart by their sources. -/
theorem Wiring.value_src_inj {v v' : Value} (hv : v ∈ w.values) (hv' : v' ∈ w.values) (hsrc : v.src = v'.src) :
    v = v' := by
  obtain ⟨i, hi⟩ := List.getElem?_of_mem hv
  obtain ⟨j, hj⟩ := List.getElem?_of_mem hv'
  have hfan {i : ValueId} {v : Value} (h : w.values[i]? = some v) : w.fanout.keys[i]? = some v.src := by
    unfold Wiring.values at h
    rw [List.getElem?_map, List.getElem?_zipIdx, Option.map_map, Option.map_eq_some_iff] at h
    obtain ⟨⟨src, dsts⟩, hget, rfl⟩ := h
    rw [SortedMap.keys, List.getElem?_map, hget]
    rfl
  have hij : i = j := by
    have hlt : i < w.fanout.keys.length := (List.getElem?_eq_some_iff.mp (hfan hi)).1
    exact (List.getElem?_inj hlt (SortedMap.keys_nodup _)).mp ((hfan hi).trans (hsrc ▸ (hfan hj).symm))
  subst hij
  exact Option.some.inj (hi.symm.trans hj)

end

/-! ## Assembled designs -/

/-- The inputs of an operation are the destinations at it. -/
theorem mem_inputsOf {names : List String} {w : Wiring} (hw : w.Sound names) {op : OpId} {i : Nat} {j : ValueId} :
    (i, j) ∈ (inputsOf w.values op).toList ↔ ∃ v ∈ w.values, v.id = j ∧ ⟨op, i⟩ ∈ v.dsts := by
  have hentries {i : Nat} {j : ValueId} :
      (i, j) ∈ w.values.flatMap (fun v => (v.dsts.filter (·.op = op)).map fun t => (t.operand, v.id)) ↔
      ∃ v ∈ w.values, v.id = j ∧ ⟨op, i⟩ ∈ v.dsts := by
    simp only [List.mem_flatMap, List.mem_map, List.mem_filter, decide_eq_true_eq, Prod.mk.injEq]
    refine exists_congr fun v => and_congr_right fun _ => ?_
    constructor
    · rintro ⟨⟨o, k⟩, ⟨ht, rfl⟩, rfl, rfl⟩
      exact ⟨rfl, ht⟩
    · rintro ⟨rfl, ht⟩
      exact ⟨_, ⟨ht, rfl⟩, rfl, rfl⟩
  unfold inputsOf
  rw [SortedMap.mem_toList_ofList, hentries]
  intro i j j' hj hj'
  obtain ⟨v, hv, rfl, ht⟩ := hentries.mp hj
  obtain ⟨v', hv', rfl, ht'⟩ := hentries.mp hj'
  have hdriver {v : Value} (hv : v ∈ w.values) (ht : ⟨op, i⟩ ∈ v.dsts) : w.drivers.get? ⟨op, i⟩ = some v.src := by
    obtain ⟨k, hk⟩ := List.getElem?_of_mem hv
    obtain ⟨-, dsts, hdsts, heq⟩ := Wiring.getElem?_values hk
    rw [heq, SortedSet.mem_toList] at ht
    exact hw.driver hdsts ht
  have hsrc := Option.some.inj ((hdriver hv ht).symm.trans (hdriver hv' ht'))
  rw [Wiring.value_src_inj hv hv' hsrc]

/-- The design that a wiring of named operations makes. -/
structure Assembled (names : List String) (w : Wiring) (d : Design) : Prop where
  sound : w.Sound names
  values : d.values = w.values
  op : ∀ {i : OpId} {op : Operation}, d.op? i = some op → op.id = i ∧
    op.output = (w.values.find? (·.src = i)).map (·.id) ∧ op.inputs = inputsOf w.values i
  exists_op : ∀ {i : OpId}, i < names.length → ∃ op, d.op? i = some op

theorem exists_assembled {operations : SortedMap String String} {ties : List NamedTie} {duplicates : SortedSet String}
    {d : Design} (h : Design.new operations ties duplicates = .ok d) : ∃ w, Assembled operations.keys w d := by
  unfold Design.new at h
  obtain ⟨w, hw, h⟩ := bind_eq_ok h
  refine ⟨w, ?_, ?_, fun {i op} hi => ?_, fun {i} hi => ?_⟩
  · exact foldlM_induction (Wiring.Sound operations.keys) (Wiring.sound_empty _) (fun _ _ _ _ hs hadd => hs.add hadd) hw
  · cases h; rfl
  · cases h
    unfold Design.op? at hi
    rw [List.getElem?_map, List.getElem?_zipIdx, Option.map_map, Option.map_eq_some_iff] at hi
    obtain ⟨entry, -, rfl⟩ := hi
    simp
  · cases h
    refine Option.isSome_iff_exists.mp ?_
    simpa [Design.op?, SortedMap.keys] using hi

/-- A design has one operation for each that it is made of. -/
theorem length_operations {operations : SortedMap String String} {ties : List NamedTie} {duplicates : SortedSet String}
    {d : Design} (h : Design.new operations ties duplicates = .ok d) : d.operations.length = operations.toList.length := by
  unfold Design.new at h
  obtain ⟨w, -, h⟩ := bind_eq_ok h
  cases h
  simp

/-- The ties of a design come from operations that it is made of. -/
theorem src_mem_keys {operations : SortedMap String String} {ties : List NamedTie} {duplicates : SortedSet String}
    {d : Design} (h : Design.new operations ties duplicates = .ok d) {tie : NamedTie} (htie : tie ∈ ties) :
    tie.src ∈ operations.keys := by
  unfold Design.new at h
  obtain ⟨w, hw, -⟩ := bind_eq_ok h
  obtain ⟨w₁, w₂, hadd⟩ := exists_of_foldlM hw htie
  unfold Wiring.add at hadd
  obtain ⟨src, hsrc, -⟩ := bind_eq_ok hadd
  exact Wiring.mem_of_find hsrc

/-- Assembled designs are well wired. -/
theorem wellWired_new {operations : SortedMap String String} {ties : List NamedTie} {duplicates : SortedSet String}
    {d : Design} (h : Design.new operations ties duplicates = .ok d) : d.WellWired := by
  obtain ⟨w, hsound, hvalues, hop, hexists⟩ := exists_assembled h
  have hvalue {v : Value} (hv : v ∈ d.values) :
      ∃ dsts, (v.src, dsts) ∈ w.fanout.toList ∧ v.dsts = dsts.toList := by
    rw [hvalues] at hv
    obtain ⟨i, hi⟩ := List.getElem?_of_mem hv
    exact (Wiring.getElem?_values hi).2
  have hindex {i : ValueId} {v : Value} (hi : d.value? i = some v) : v.id = i := by
    unfold Design.value? at hi
    rw [hvalues] at hi
    exact (Wiring.getElem?_values hi).1
  have hget {v : Value} (hv : v ∈ d.values) : d.value? v.id = some v := by
    obtain ⟨i, hi⟩ := List.getElem?_of_mem hv
    exact (hindex hi).symm ▸ hi
  have hmem {op : Operation} (ho : op ∈ d.operations) : d.op? op.id = some op := by
    obtain ⟨i, hi⟩ := List.getElem?_of_mem ho
    exact (hop hi).1.symm ▸ hi
  refine ⟨fun hi => (hop hi).1, hindex, fun {v} hv => ?_, fun {op i} ho hout => ?_, fun {v t} hv ht => ?_,
    fun {op i j} ho hij => ?_, fun {v} hv => ?_, fun {v} hv => ?_⟩
  · obtain ⟨dsts, hdsts, -⟩ := hvalue hv
    obtain ⟨op, ho⟩ := hexists (hsound.src_lt hdsts)
    refine ⟨op, ho, ?_⟩
    rw [(hop ho).2.1]
    cases hfind : w.values.find? (·.src = v.src) with
    | none => simpa using List.find?_eq_none.mp hfind v (hvalues ▸ hv)
    | some v' =>
      have hsrc : v'.src = v.src := by simpa using List.find?_some hfind
      rw [Wiring.value_src_inj (List.mem_of_find?_eq_some hfind) (hvalues ▸ hv) hsrc]
      rfl
  · rw [(hop (hmem ho)).2.1, Option.map_eq_some_iff] at hout
    obtain ⟨v, hfind, rfl⟩ := hout
    exact ⟨v, hget (hvalues ▸ List.mem_of_find?_eq_some hfind), by simpa using List.find?_some hfind⟩
  · obtain ⟨dsts, hdsts, heq⟩ := hvalue hv
    have hin : t ∈ dsts := by rwa [heq, SortedSet.mem_toList] at ht
    obtain ⟨op, ho⟩ := hexists (hsound.dst_lt hdsts hin)
    refine ⟨op, ho, ?_⟩
    rw [(hop ho).2.2]
    exact (mem_inputsOf hsound).mpr ⟨v, hvalues ▸ hv, rfl, ht⟩
  · rw [(hop (hmem ho)).2.2] at hij
    obtain ⟨v, hv, rfl, ht⟩ := (mem_inputsOf hsound).mp hij
    exact ⟨v, hget (hvalues ▸ hv), ht⟩
  · obtain ⟨dsts, hdsts, heq⟩ := hvalue hv
    rw [heq]
    exact hsound.dsts_ne_nil hdsts
  · obtain ⟨dsts, -, heq⟩ := hvalue hv
    rw [heq]
    exact dsts.nodup

end Design
end PlaceRoute
