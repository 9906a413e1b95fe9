import PlaceRoute.Proofs.Session.Probe

/-!
# What a search knows

A probe of a search asks for what families, pins and window want (`Wanted`, `Search.Admits`). `Search.Knows p objective s`: the best
model is a mapping with the score `upper`, no mapping scores below `lower`, and none with the pinned placement below `floor`. This is
kept if a better mapping is found (`Knows.improve`), if a probe finds nothing (`Knows.refute`), and when the placement is frozen
(`Knows.freeze`).
-/

namespace PlaceRoute

open PlaceRoute.Sat (Literal Assignment)

/-- The decisions place operations as the pins say. -/
def Pinning (pins : Option (List (Key × Bool))) (δ : Key → Bool) : Prop := ∀ x ∈ pins.getD [], δ x.1 = x.2

section
variable {p : Problem} {objective : Objective} {families : List Family} {o : SearchOptions} {s : Search} {m : Model}
  {c bound : Nat} {g : Graph} {d : Design}

/-! ## Pins -/

theorem mem_placementPins {x : Key × Bool} : x ∈ m.placementPins g d ↔
    ∃ u ∈ g.units, ∃ op ∈ d.operations, x = (.place u op.id, m.isSet (.place u op.id)) := by
  unfold Model.placementPins
  simp only [List.mem_flatMap, List.mem_map, eq_comm]

theorem placementPins_mem_allKeys : ∀ x ∈ m.placementPins g d, x.1 ∈ allKeys g d := by
  intro x hx
  obtain ⟨u, hu, op, hop, rfl⟩ := mem_placementPins.mp hx
  exact place_mem_allKeys hu hop

/-- Decisions that agree with the pins of a model have its placement. -/
theorem pinning_placementPins_iff {δ : Key → Bool} : Pinning (some (m.placementPins g d)) δ ↔
    ∀ u ∈ g.units, ∀ op ∈ d.operations, δ (.place u op.id) = m.isSet (.place u op.id) := by
  constructor
  · intro h u hu op hop
    exact h _ (mem_placementPins.mpr ⟨u, hu, op, hop, rfl⟩)
  · intro h x hx
    obtain ⟨u, hu, op, hop, rfl⟩ := mem_placementPins.mp hx
    exact h u hu op hop

theorem placementPins_congr {m' : Model} (h : Pinning (some (m.placementPins g d)) m'.isSet) :
    m'.placementPins g d = m.placementPins g d := by
  rw [pinning_placementPins_iff] at h
  unfold Model.placementPins
  refine List.flatMap_congr fun u hu => List.map_congr_left fun op hop => ?_
  rw [h u hu op hop]

/-! ## Probes -/

/-- The decisions that families, pins and window ask for. -/
def Wanted (p : Problem) (objective : Objective) (families : List Family) (pins : List (Key × Bool)) (lower upper : Nat)
    (δ : Key → Bool) : Prop :=
  (∀ family ∈ families, family.Holds p.graph p.design δ) ∧ (∀ x ∈ pins, δ x.1 = x.2) ∧
    lower ≤ objective.carried p.graph p.design δ ∧ objective.carried p.graph p.design δ < upper

/-- What a probe of a search up to a bound may find. -/
def Search.Admits (p : Problem) (objective : Objective) (families : List Family) (s : Search) (bound : Nat)
    (found : Option Model) : Prop :=
  Finds (allKeys p.graph p.design) (Wanted p objective families (s.pins.getD []) s.floor (bound + 1)) found

/-- A model that a probe found scores at most the bound, where nets are on with their flows. -/
theorem Search.Admits.eval_le (h : s.Admits p objective families bound (some m)) (hg : p.graph.WellWired)
    (hd : p.design.WellWired) (hnets : Family.FlowsHaveNets p.graph p.design m.isSet)
    (hc : objective.eval p.graph p.design m = .ok c) : c ≤ bound := by
  obtain ⟨-, -, -, -, hlt⟩ := h
  have hcarried := objective.eval_le_carried hd hg hnets hc
  omega

/-! ## Knowledge -/

/-- The best model is a mapping with the score `upper`; no mapping scores below `lower`, and none with the pinned placement
below `floor`. -/
structure Search.Knows (p : Problem) (objective : Objective) (s : Search) : Prop where
  mapping : s.best.IsMapping p.graph p.design
  upper : objective.eval p.graph p.design s.best = .ok s.upper
  pins : ∀ {pins : List (Key × Bool)}, s.pins = some pins → pins = s.best.placementPins p.graph p.design
  lower : ∀ {m : Model} {c : Nat}, Family.AllHold p.graph p.design m.isSet → objective.eval p.graph p.design m = .ok c →
    s.lower ≤ c
  floor : ∀ {m : Model} {c : Nat}, Family.AllHold p.graph p.design m.isSet → Pinning s.pins m.isSet →
    objective.eval p.graph p.design m = .ok c → s.floor ≤ c

/-- What a probe up to a bound makes of a search: a model that it found scores at most the bound. -/
inductive Search.Probed (s : Search) (bound : Nat) : Search → Prop
  | found (count : Count) (m : Model) {score : Nat} :
      score ≤ bound → Probed s bound ({ s with count := count }.improve m score).record
  | refuted (count : Count) : Probed s bound ({ s with count := count }.refute bound).record

namespace Search.Knows

theorem first (h : m.IsMapping p.graph p.design) (hc : objective.eval p.graph p.design m = .ok c)
    (count : Count) : Search.Knows p objective { best := m, upper := c, count := count, history := [(0, c)] } where
  mapping := h
  upper := hc
  pins := nofun
  lower _ _ := Nat.zero_le _
  floor _ _ _ := Nat.zero_le _

theorem with_count (h : s.Knows p objective) (count : Count) : Search.Knows p objective { s with count := count } :=
  ⟨h.mapping, h.upper, h.pins, h.lower, h.floor⟩

theorem record (h : s.Knows p objective) : s.record.Knows p objective :=
  ⟨h.mapping, h.upper, h.pins, h.lower, h.floor⟩

theorem freeze (h : s.Knows p objective) (hpins : s.pins = none) :
    Search.Knows p objective { s with pins := some (s.best.placementPins p.graph p.design) } where
  mapping := h.mapping
  upper := h.upper
  pins hp := (Option.some.inj hp).symm
  lower := h.lower
  floor hm _ hc := h.floor hm (by simp [Pinning, hpins]) hc

/-- The pins are decisions about placement. -/
theorem pinning_congr (h : s.Knows p objective) {δ δ' : Key → Bool} (hplace : ∀ u op, δ' (.place u op) = δ (.place u op))
    (hδ : Pinning s.pins δ) : Pinning s.pins δ' := by
  intro x hx
  rw [← hδ x hx]
  cases hp : s.pins with
  | none => simp [hp] at hx
  | some pins =>
    rw [hp, Option.getD_some, h.pins hp] at hx
    obtain ⟨u, -, op, -, rfl⟩ := mem_placementPins.mp hx
    exact hplace u op.id

theorem pins_mem_allKeys (h : s.Knows p objective) : ∀ x ∈ s.pins.getD [], x.1 ∈ allKeys p.graph p.design := by
  cases hp : s.pins with
  | none => simp
  | some pins =>
    rw [Option.getD_some, h.pins hp]
    exact placementPins_mem_allKeys

/-- A mapping that scores no more than the best one and is placed as pinned. -/
theorem improve (h : s.Knows p objective) (hmapping : m.IsMapping p.graph p.design) (hpinned : Pinning s.pins m.isSet)
    (hle : c ≤ s.upper) (hc : objective.eval p.graph p.design m = .ok c) : (s.improve m c).Knows p objective := by
  refine ⟨hmapping, hc.trans (congrArg _ (Nat.min_eq_right hle).symm), fun hp => ?_, h.lower, h.floor⟩
  have hold := h.pins hp
  have hp' : s.pins = some _ := hp
  rw [hp', hold] at hpinned
  exact hold.trans (placementPins_congr hpinned).symm

/-- If a probe finds nothing, every score is above the bound. -/
theorem refute (hg : p.graph.WellWired) (hd : p.design.WellWired) (h : s.Knows p objective)
    (hnone : s.Admits p objective families bound none) : (s.refute bound).Knows p objective := by
  have hfloor {m : Model} {c : Nat} (hm : Family.AllHold p.graph p.design m.isSet) (hpinned : Pinning s.pins m.isSet)
      (hc : objective.eval p.graph p.design m = .ok c) : bound + 1 ≤ c := by
    -- The mapping without its stray flows is counted as it is scored.
    obtain ⟨δ, hδ, hcarried, hplace⟩ := objective.exists_carried_eq hd hg hm hc
    have hlow := h.floor hm hpinned hc
    by_contra hlt
    exact hnone δ ⟨fun f _ => hδ f, h.pinning_congr hplace hpinned, by omega, by omega⟩
  refine ⟨h.mapping, h.upper, h.pins, fun {m c} hm hc => ?_, hfloor⟩
  show (if s.pins.isSome then s.lower else bound + 1) ≤ c
  split
  · exact h.lower hm hc
  · next hnot =>
    have hpins : s.pins = none := by simpa using hnot
    exact hfloor hm (by simp [Pinning, hpins]) hc

end Search.Knows

/-! ## The next step -/

namespace Search

variable {expired : Bool}

theorem lt_upper_of_next (h : s.next o expired = .probe bound) : bound < s.upper := by
  unfold next at h
  split at h
  · cases h
  next hlt =>
  split at h
  · split at h <;> cases h
  split at h
  · cases h
  split at h
  · cases h
  rw [← SearchStep.probe.inj h, Search.bound]
  split <;> omega

theorem pins_eq_none_of_next (h : s.next o expired = .freeze) : s.pins = none := by
  unfold next at h
  split at h
  · cases h
  split at h
  · split at h
    · next hfreeze => simpa using (Bool.and_eq_true_iff.mp hfreeze).2
    · cases h
  split at h
  · cases h
  split at h <;> cases h

end Search
end
end PlaceRoute
