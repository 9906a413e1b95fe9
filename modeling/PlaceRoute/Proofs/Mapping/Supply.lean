import Mathlib.Data.List.Nodup
import Mathlib.Data.List.Perm.Subperm
import PlaceRoute.Proofs.Design.Wiring
import PlaceRoute.Proofs.Mapping.Legal
import PlaceRoute.Session.Basic

/-!
# Too few units

Legal placements put the operations of an opcode on as many units that support it (`demand_le_supply`), so there is no mapping
where the first count of units and operations finds too few (`not_allHold_of_infeasible`). That count finds too few exactly where
there are (`infeasible_iff`).
-/

namespace PlaceRoute

/-- A map that counts the keys of a list. -/
theorem getD_get?_foldl_alter {α : Type} (items : List α) (key : α → String) (counts : SortedMap String Nat) (k : String) :
    ((items.foldl (fun counts x => counts.alter (key x) fun n => n.getD 0 + 1) counts).get? k).getD 0 =
      (counts.get? k).getD 0 + items.countP fun x => decide (key x = k) := by
  induction items generalizing counts with
  | nil => rfl
  | cons x items ih =>
    rw [List.foldl_cons, ih, SortedMap.alter, SortedMap.get?_insert, List.countP_cons]
    by_cases hk : key x = k
    · subst hk
      simp
      omega
    · simp [hk]

/-- A map that counts the keys of a list has no entry for other keys. -/
theorem get?_foldl_alter_eq_none {α : Type} {items : List α} {key : α → String} {k : String} :
    (items.foldl (fun counts x => counts.alter (key x) fun n => n.getD 0 + 1) (∅ : SortedMap String Nat)).get? k = none ↔
      ∀ x ∈ items, key x ≠ k := by
  suffices hall : ∀ counts : SortedMap String Nat,
      (items.foldl (fun counts x => counts.alter (key x) fun n => n.getD 0 + 1) counts).get? k = none ↔
        counts.get? k = none ∧ ∀ x ∈ items, key x ≠ k from (hall ∅).trans (and_iff_right rfl)
  induction items with
  | nil => simp
  | cons x items ih =>
    intro counts
    rw [List.foldl_cons, ih, SortedMap.alter, SortedMap.get?_insert, List.forall_mem_cons]
    by_cases hk : key x = k <;> simp [hk]

theorem eq_of_countP_le_one {α : Type} {l : List α} {p : α → Bool} (h : l.countP p ≤ 1) {x y : α} (hx : x ∈ l) (hy : y ∈ l)
    (hpx : p x = true) (hpy : p y = true) : x = y := by
  have hx' := List.mem_filter.mpr ⟨hx, hpx⟩
  have hy' := List.mem_filter.mpr ⟨hy, hpy⟩
  rw [List.countP_eq_length_filter] at h
  match hl : l.filter p with
  | [] => simp [hl] at hx'
  | [z] =>
    rw [hl, List.mem_singleton] at hx' hy'
    rw [hx', hy']
  | _ :: _ :: _ => simp [hl] at h

theorem countP_eq_one {α : Type} {l : List α} {p : α → Bool} (hl : l.Nodup) {x : α} (hx : x ∈ l) (hpx : p x = true)
    (honly : ∀ y ∈ l, p y = true → y = x) : l.countP p = 1 := by
  have hperm : (l.filter p).Perm [x] := (List.perm_ext_iff_of_nodup (hl.filter p) (List.nodup_singleton x)).mpr fun y => by
    rw [List.mem_filter, List.mem_singleton]
    exact ⟨fun h => honly y h.1 h.2, fun h => h ▸ ⟨hx, hpx⟩⟩
  rw [List.countP_eq_length_filter]
  exact hperm.length_eq

theorem countP_le_one {α : Type} {l : List α} {p : α → Bool} (hl : l.Nodup)
    (honly : ∀ x ∈ l, ∀ y ∈ l, p x = true → p y = true → y = x) : l.countP p ≤ 1 := by
  by_cases hsome : ∃ x ∈ l, p x = true
  · obtain ⟨x, hx, hpx⟩ := hsome
    exact Nat.le_of_eq (countP_eq_one hl hx hpx fun y hy hpy => honly x hx y hy hpx hpy)
  · rw [List.countP_eq_zero.mpr fun x hx hpx => hsome ⟨x, hx, hpx⟩]
    exact Nat.zero_le 1

variable {g : Graph} {d : Design} {δ : Key → Bool} {opcode : String}

/-- The number of operations of an opcode. -/
def Design.demand (d : Design) (opcode : String) : Nat := d.operations.countP fun op => decide (op.opcode = opcode)

/-- The number of units that support an opcode. -/
def Graph.supply (g : Graph) (opcode : String) : Nat := g.units.countP fun u => (g.node? u).any (·.supports opcode)

/-- The counts of a design are the demands that are not zero. -/
theorem mem_opcodeCounts {demand : Nat} :
    (opcode, demand) ∈ d.opcodeCounts.toList ↔ demand = d.demand opcode ∧ ∃ op ∈ d.operations, op.opcode = opcode := by
  have hcount : (d.opcodeCounts.get? opcode).getD 0 = d.demand opcode :=
    (getD_get?_foldl_alter d.operations (·.opcode) ∅ opcode).trans (Nat.zero_add _)
  have hnone : d.opcodeCounts.get? opcode = none ↔ ∀ op ∈ d.operations, op.opcode ≠ opcode := get?_foldl_alter_eq_none
  rw [← SortedMap.get?_eq_some_iff]
  cases hget : d.opcodeCounts.get? opcode with
  | none =>
    refine iff_of_false nofun ?_
    rintro ⟨-, op, hop, hopcode⟩
    exact hnone.mp hget op hop hopcode
  | some n =>
    rw [hget, Option.getD_some] at hcount
    have hsome : ∃ op ∈ d.operations, op.opcode = opcode := by
      by_contra hno
      rw [hnone.mpr fun op hop hopcode => hno ⟨op, hop, hopcode⟩] at hget
      cases hget
    rw [hcount, Option.some.injEq, eq_comm, and_iff_left hsome]

theorem Design.demand_pos : 0 < d.demand opcode ↔ ∃ op ∈ d.operations, op.opcode = opcode := by
  unfold Design.demand
  simp only [List.countP_pos_iff, decide_eq_true_eq]

/-- Every unit that supports an opcode counts once for it. -/
theorem opcodeSupply_eq : (g.opcodeSupply.get? opcode).getD 0 = g.supply opcode := by
  have hcount := getD_get?_foldl_alter (g.units.flatMap fun u => (((g.node? u).bind (·.ops?)).getD ∅).toList) id ∅ opcode
  refine (hcount.trans (Nat.zero_add _)).trans ?_
  unfold Graph.supply
  generalize g.units = units
  induction units with
  | nil => rfl
  | cons u units ih =>
    rw [List.flatMap_cons, List.countP_append, ih, List.countP_cons, Nat.add_comm]
    refine congrArg _ ?_
    cases hnode : g.node? u with
    | none => rfl
    | some node =>
      rw [Option.bind_some, Option.any_some, Node.supports]
      cases node.ops? with
      | none => rfl
      | some ops =>
        rw [Option.getD_some, Option.any_some]
        by_cases hmem : opcode ∈ ops
        · have honly : ∀ x ∈ ops.toList, decide (id x = opcode) = true → x = opcode := fun x _ hx => of_decide_eq_true hx
          rw [countP_eq_one (SortedSet.nodup ops) (SortedSet.mem_toList.mpr hmem) (decide_eq_true rfl) honly]
          simp [hmem]
        · have hnot : ∀ x ∈ ops.toList, ¬ decide (id x = opcode) = true := by
            intro x hx hxo
            obtain rfl : x = opcode := of_decide_eq_true hxo
            exact hmem (SortedSet.mem_toList.mp hx)
          rw [List.countP_eq_zero.mpr hnot]
          simp [hmem]

/-- Operations that are placed stand on units. -/
theorem exists_hosts (hplaced : Family.OpsPlaced g d δ) :
    ∃ host : Operation → NodeId, ∀ op ∈ d.operations, host op ∈ g.units ∧ δ (.place (host op) op.id) = true := by
  have hhost {op : Operation} (hop : op ∈ d.operations) : ∃ u ∈ g.units, δ (.place u op.id) = true := by
    have hplaced := hplaced op hop
    split at hplaced
    · exact hplaced
    · exact List.countP_pos_iff.mp (Nat.lt_of_lt_of_eq Nat.one_pos hplaced.symm)
  refine ⟨fun op => (g.units.find? fun u => δ (.place u op.id)).getD 0, fun op hop => ?_⟩
  obtain ⟨w, hw⟩ := Option.isSome_iff_exists.mp (List.find?_isSome.mpr (hhost hop))
  have hplace := List.find?_some hw
  dsimp only
  rw [hw, Option.getD_some]
  exact ⟨List.mem_of_find?_eq_some hw, hplace⟩

/-- Operations stand on different units that support them. -/
theorem demand_le_supply (hd : d.WellWired) (hplaced : Family.OpsPlaced g d δ) (hexclusive : Family.UnitsExclusive g d δ)
    (hsupported : Family.PlacementsSupported g d δ) (opcode : String) : d.demand opcode ≤ g.supply opcode := by
  obtain ⟨host, hhost⟩ := exists_hosts hplaced
  have hnodup : d.operations.Nodup := hd.nodup_operations.of_map _
  have hinj : ∀ op ∈ d.operations, ∀ op' ∈ d.operations, host op = host op' → op = op' := by
    intro op hop op' hop' heq
    have hplace := (hhost op hop).2
    have hplace' := heq ▸ (hhost op' hop').2
    exact eq_of_countP_le_one (hexclusive (host op) (hhost op hop).1) hop hop' hplace hplace'
  unfold Design.demand Graph.supply
  rw [List.countP_eq_length_filter, List.countP_eq_length_filter]
  have hhosts : ((d.operations.filter fun op => decide (op.opcode = opcode)).map host).Nodup :=
    (hnodup.filter _).map_on fun op hop op' hop' =>
      hinj op (List.mem_of_mem_filter hop) op' (List.mem_of_mem_filter hop')
  have hsub : (d.operations.filter fun op => decide (op.opcode = opcode)).map host ⊆
      g.units.filter fun u => (g.node? u).any (·.supports opcode) := by
    intro u hu
    obtain ⟨op, hop, rfl⟩ := List.mem_map.mp hu
    obtain ⟨hop, hopcode⟩ := List.mem_filter.mp hop
    obtain ⟨hu, hplace⟩ := hhost op hop
    refine List.mem_filter.mpr ⟨hu, ?_⟩
    by_contra hnot
    have hoff := hsupported _ hu op hop
    rw [← of_decide_eq_true hopcode] at hnot
    rw [hoff (Bool.eq_false_iff.mpr hnot)] at hplace
    cases hplace
  have hlen := (hhosts.subperm hsub).length_le
  rwa [List.length_map] at hlen

/-! ## The first count -/

/-- The count that finds too few units has the right numbers. -/
theorem of_infeasible {demand supply : Nat} (h : Feasibility.of g d = .infeasible opcode demand supply) :
    demand = d.demand opcode ∧ supply = g.supply opcode ∧ supply < demand := by
  unfold Feasibility.of at h
  dsimp only at h
  split at h
  · next opcode' demand' hfind =>
    cases h
    have hlt : (g.opcodeSupply.get? opcode).getD 0 < demand := of_decide_eq_true (by simpa using List.find?_some hfind)
    have hdemand := (mem_opcodeCounts.mp (List.mem_of_find?_eq_some hfind)).1
    exact ⟨hdemand, opcodeSupply_eq, hlt⟩
  · cases h

/-- The count finds too few units exactly if there is an opcode that more operations need than units support. -/
theorem infeasible_iff : (∃ opcode demand supply, Feasibility.of g d = .infeasible opcode demand supply) ↔
    ∃ opcode, g.supply opcode < d.demand opcode := by
  constructor
  · rintro ⟨opcode, demand, supply, h⟩
    obtain ⟨rfl, rfl, hlt⟩ := of_infeasible h
    exact ⟨opcode, hlt⟩
  · rintro ⟨opcode, hlt⟩
    unfold Feasibility.of
    dsimp only
    split
    · next opcode' demand' hfind => exact ⟨_, _, _, rfl⟩
    · next hnone =>
      have hsome := Design.demand_pos.mp (Nat.lt_of_le_of_lt (Nat.zero_le _) hlt)
      have hle := List.find?_eq_none.mp hnone _ (mem_opcodeCounts.mpr ⟨rfl, hsome⟩)
      rw [← opcodeSupply_eq] at hlt
      exact absurd (decide_eq_true hlt) hle

/-- Where the units are too few, there is no mapping. -/
theorem not_allHold_of_infeasible (hd : d.WellWired) {demand supply : Nat}
    (h : Feasibility.of g d = .infeasible opcode demand supply) : ¬ Family.AllHold g d δ := by
  intro hall
  obtain ⟨rfl, rfl, hlt⟩ := of_infeasible h
  exact absurd (demand_le_supply hd (hall .opPlacement) (hall .peExclusivity) (hall .peLegality) opcode) (Nat.not_le.mpr hlt)

end PlaceRoute
