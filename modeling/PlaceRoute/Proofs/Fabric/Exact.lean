import Mathlib.Data.List.Nodup
import PlaceRoute.Proofs.Fabric.Validation

/-!
# What validation accepts

The checks of `Fabric.validate` go through blocks and ties once, in order, and look elements up by their names. They accept
exactly the fabrics with seven properties that know neither order nor lookups (`Fabric.Admissible`, `Fabric.validate_exact`): when
names are unambiguous an address names one element at most (`Fabric.resolve_eq_some_iff`), and a tie passes exactly if it fits and
takes nothing that is taken (`Fabric.checkTie_eq_ok_iff`).
-/

namespace PlaceRoute

/-- When keys are different, looking a key up finds the item that has it. -/
theorem find?_key_eq_some_iff {α κ : Type} [DecidableEq κ] {key : α → κ} {l : List α} (hl : (l.map key).Nodup) {k : κ} {x : α} :
    l.find? (fun y => key y = k) = some x ↔ x ∈ l ∧ key x = k := by
  constructor
  · intro h
    exact ⟨List.mem_of_find?_eq_some h, by simpa using List.find?_some h⟩
  · rintro ⟨hx, rfl⟩
    obtain ⟨y, hy⟩ := Option.isSome_iff_exists.mp (List.find?_isSome (p := fun y => decide (key y = key x)) |>.mpr ⟨x, hx, by simp⟩)
    have hsame : key y = key x := by simpa using List.find?_some hy
    rw [hy, List.inj_on_of_nodup_map hl (List.mem_of_find?_eq_some hy) hx hsame]

namespace Fabric

/-- The element is at the location of the address and has its name. -/
def Names (f : Fabric) (a : Address) (e : Element) : Prop :=
  ∃ b ∈ f.blocks, b.location = a.location ∧ e ∈ b.elements ∧ e.name = a.element

/-- The tie leads to an input of a functional unit. -/
def FeedsUnit (f : Fabric) (tie : Tie) : Prop := ∃ i, f.Names tie.dst (.ofInstance i) ∧ i.kind = .functionalUnit

/-- Locations and names are different, ports have one direction, and ties join ports that exist, with one driver for an input and
operand ports of different operands for a functional unit. -/
structure Admissible (f : Fabric) : Prop where
  locations : f.blocks.Pairwise fun b b' => b.location ≠ b'.location
  /-- Of instances, muxes and operand ports alike. -/
  names : ∀ b ∈ f.blocks, b.elements.Pairwise fun e e' => e.name ≠ e'.name
  directions : ∀ b ∈ f.blocks, ∀ e ∈ b.elements, ∀ port, ¬(port ∈ e.inputPorts ∧ port ∈ e.outputPorts)
  ends : ∀ tie ∈ f.ties, (∃ e, f.Names tie.src e ∧ tie.src.port ∈ e.outputPorts) ∧ ∃ e, f.Names tie.dst e ∧ tie.dst.port ∈ e.inputPorts
  drivers : f.ties.Pairwise fun tie tie' => tie.dst ≠ tie'.dst
  units : ∀ tie ∈ f.ties, f.FeedsUnit tie → ∃ p, f.Names tie.src (.ofOperandPort p)
  operands : f.ties.Pairwise fun tie tie' => f.FeedsUnit tie → tie.dst.location = tie'.dst.location →
    tie.dst.element = tie'.dst.element → ∀ p p', f.Names tie.src (.ofOperandPort p) → f.Names tie'.src (.ofOperandPort p') →
    p.operand ≠ p'.operand

variable {f : Fabric} {tie tie' : Tie} {taken taken' : Taken} {a : Address} {e e' : Element}

/-! ## Addresses -/

/-- When names are unambiguous an address stands for the element that it names. -/
theorem resolve_eq_some_iff (hlocations : (f.blocks.map (·.location)).Nodup)
    (hnames : ∀ b ∈ f.blocks, (b.elements.map (·.name)).Nodup) : f.resolve a = some e ↔ f.Names a e := by
  unfold resolve
  rw [Option.bind_eq_some_iff]
  refine exists_congr fun b => ?_
  rw [block?, find?_key_eq_some_iff hlocations, and_assoc]
  refine and_congr_right fun hb => and_congr_right fun _ => ?_
  rw [Block.element?, find?_key_eq_some_iff (hnames b hb)]

/-! ## Ties -/

/-- A tie passes exactly if it fits, its input is free and the unit that it leads to does not bind its operand. -/
theorem checkTie_eq_ok_iff : checkTie f taken tie = .ok taken' ↔
    f.Fits tie ∧ tie.dst ∉ taken.inputs ∧ (∀ b ∈ f.binding? tie, b ∉ taken.operands) ∧ taken' = taken.after f tie := by
  refine ⟨checkTie_eq_ok, ?_⟩
  rintro ⟨hfits, hfree, hnew, rfl⟩
  obtain ⟨src, hsrc, hout⟩ := hfits.source
  obtain ⟨dst, hdst, hin⟩ := hfits.target
  unfold checkTie
  rw [hsrc]
  dsimp only
  rw [if_neg (not_not.mpr hout), hdst]
  dsimp only
  rw [if_neg (not_not.mpr hin), if_neg hfree]
  by_cases hunit : ∃ i, dst = .ofInstance i ∧ i.kind = .functionalUnit
  · obtain ⟨i, rfl, hkind⟩ := hunit
    obtain ⟨p, hp⟩ := hfits.unit i hdst hkind
    obtain rfl : src = .ofOperandPort p := Option.some.inj (hsrc.symm.trans hp)
    have hbinding := binding?_unit hdst hkind hsrc
    dsimp only
    rw [if_pos hkind, if_neg (hnew _ hbinding), Taken.after, hbinding]
    rfl
  · have hbinding := binding?_routing hdst fun i hi hkind => hunit ⟨i, hi, hkind⟩
    rw [Taken.after, hbinding]
    split
    · next i =>
      rw [if_neg fun hkind => hunit ⟨i, rfl, hkind⟩]
      rfl
    · rfl

/-- Ties pass one after the other exactly if all fit and none takes what another one takes or what is taken. -/
theorem exists_checkTies_iff {ties : List Tie} : (∃ taken', ties.foldlM (checkTie f) taken = .ok taken') ↔
    (∀ tie ∈ ties, f.Fits tie) ∧ (ties.map (·.dst)).Nodup ∧ (∀ tie ∈ ties, tie.dst ∉ taken.inputs) ∧
      (ties.filterMap f.binding?).Nodup ∧ ∀ b ∈ ties.filterMap f.binding?, b ∉ taken.operands := by
  refine ⟨fun ⟨taken', h⟩ => checkTies_eq_ok h, ?_⟩
  rintro ⟨hfits, hdrivers, hfree, hoperands, hnew⟩
  induction ties generalizing taken with
  | nil => exact ⟨taken, rfl⟩
  | cons tie ties ih =>
    obtain ⟨htie, hfits⟩ := List.forall_mem_cons.mp hfits
    obtain ⟨hdst, hdrivers⟩ := List.nodup_cons.mp hdrivers
    obtain ⟨htieFree, hfree⟩ := List.forall_mem_cons.mp hfree
    have hall (b : Location × String × Nat) : b ∈ (tie :: ties).filterMap f.binding? ↔
        f.binding? tie = some b ∨ b ∈ ties.filterMap f.binding? := by simp [List.mem_filterMap]
    have hstep := checkTie_eq_ok_iff.mpr ⟨htie, htieFree, fun b hb => hnew b ((hall b).mpr (Or.inl hb)), rfl⟩
    rw [List.foldlM_cons, hstep, ok_bind]
    refine ih hfits hdrivers (fun tie' htie' hmem => ?_) (hoperands.sublist ?_) fun b hb hmem => ?_
    · rcases List.mem_cons.mp hmem with heq | hmem
      · exact hdst (List.mem_map.mpr ⟨tie', htie', heq⟩)
      · exact hfree tie' htie' hmem
    · exact (List.sublist_cons_self tie ties).filterMap _
    · rcases List.mem_append.mp hmem with hbinding | hmem
      · rw [List.filterMap_cons_some (Option.mem_toList.mp hbinding)] at hoperands
        exact (List.nodup_cons.mp hoperands).1 hb
      · exact hnew b ((hall b).mpr (Or.inr hb)) hmem

theorem validate_eq_ok_iff : f.validate = .ok () ↔ f.WellFormed := by
  refine ⟨wellFormed_of_validate, fun hf => ?_⟩
  have hblocks : checkBlocks [] f.blocks = .ok () :=
    checkBlocks_eq_ok_iff.mpr ⟨hf.locations, fun _ _ => List.not_mem_nil, fun b hb => ⟨hf.names b hb, hf.oneWay b hb⟩⟩
  obtain ⟨taken, hties⟩ : ∃ taken, f.ties.foldlM (checkTie f) ⟨[], []⟩ = .ok taken := exists_checkTies_iff.mpr
    ⟨hf.fits, hf.drivers, fun _ _ => List.not_mem_nil, hf.operands, fun _ _ => List.not_mem_nil⟩
  unfold validate
  rw [hblocks, ok_bind, hties]
  rfl

/-! ## Order and lookups do not matter -/

/-- What a tie binds, in terms of the elements that its ends name. -/
theorem binding?_eq_some_iff {b : Location × String × Nat} : f.binding? tie = some b ↔ ∃ i p,
    f.resolve tie.dst = some (.ofInstance i) ∧ i.kind = .functionalUnit ∧ f.resolve tie.src = some (.ofOperandPort p) ∧
      b = (tie.dst.location, i.name, p.operand) := by
  constructor
  · intro h
    unfold binding? at h
    split at h
    · next i p hi hp =>
      split at h
      · next hkind => exact ⟨i, p, hi, hkind, hp, (Option.some.inj h).symm⟩
      · cases h
    · cases h
  · rintro ⟨i, p, hi, hkind, hp, rfl⟩
    exact binding?_unit hi hkind hp

theorem resolve_congr {a' : Address} (hlocation : a.location = a'.location) (helement : a.element = a'.element) :
    f.resolve a = f.resolve a' := by
  unfold resolve
  rw [hlocation, helement]

section
variable (hlocations : (f.blocks.map (·.location)).Nodup) (hnames : ∀ b ∈ f.blocks, (b.elements.map (·.name)).Nodup)
include hlocations hnames

/-- A tie fits exactly if its ends name ports of the right direction, and the start of one into a unit an operand port. -/
theorem fits_iff : f.Fits tie ↔
    ((∃ e, f.Names tie.src e ∧ tie.src.port ∈ e.outputPorts) ∧ ∃ e, f.Names tie.dst e ∧ tie.dst.port ∈ e.inputPorts) ∧
      (f.FeedsUnit tie → ∃ p, f.Names tie.src (.ofOperandPort p)) := by
  simp only [FeedsUnit, ← resolve_eq_some_iff hlocations hnames]
  constructor
  · rintro ⟨hsource, htarget, hunit⟩
    exact ⟨⟨hsource, htarget⟩, fun ⟨i, hi, hkind⟩ => hunit i hi hkind⟩
  · rintro ⟨⟨hsource, htarget⟩, hunit⟩
    exact ⟨hsource, htarget, fun i hi hkind => hunit ⟨i, hi, hkind⟩⟩

/-- Two ties bind different things exactly if they do not bind the same operand of one unit. -/
theorem bindings_ne_iff :
    (∀ b, f.binding? tie = some b → ∀ b', f.binding? tie' = some b' → b ≠ b') ↔
      (f.FeedsUnit tie → tie.dst.location = tie'.dst.location → tie.dst.element = tie'.dst.element → ∀ p p',
        f.Names tie.src (.ofOperandPort p) → f.Names tie'.src (.ofOperandPort p') → p.operand ≠ p'.operand) := by
  have hnamed {tie : Tie} {i : Instance} (hi : f.resolve tie.dst = some (.ofInstance i)) : i.name = tie.dst.element := by
    obtain ⟨-, -, -, -, hname⟩ := (resolve_eq_some_iff hlocations hnames).mp hi
    exact hname
  simp only [FeedsUnit, ← resolve_eq_some_iff hlocations hnames, binding?_eq_some_iff]
  constructor
  · rintro h ⟨i, hi, hkind⟩ hlocation helement p p' hp hp' heq
    have hi' : f.resolve tie'.dst = some (.ofInstance i) := resolve_congr hlocation helement ▸ hi
    exact h _ ⟨i, p, hi, hkind, hp, rfl⟩ _ ⟨i, p', hi', hkind, hp', rfl⟩ (by rw [hlocation, heq])
  · rintro h b ⟨i, p, hi, hkind, hp, rfl⟩ b' ⟨i', p', hi', hkind', hp', rfl⟩ heq
    simp only [Prod.mk.injEq] at heq
    obtain ⟨hlocation, hname, hoperand⟩ := heq
    rw [hnamed hi, hnamed hi'] at hname
    exact h ⟨i, hi, hkind⟩ hlocation hname p p' hp hp' hoperand

end

theorem wellFormed_iff : f.WellFormed ↔ f.Admissible := by
  have hpairwise {α β : Type} {key : α → β} {l : List α} : (l.map key).Nodup ↔ l.Pairwise fun x y => key x ≠ key y :=
    List.pairwise_map
  have hways (e : Element) : e.OneWay ↔ ∀ port, ¬(port ∈ e.inputPorts ∧ port ∈ e.outputPorts) :=
    forall_congr' fun port => ⟨fun h hp => h hp.2 hp.1, fun h hout hin => h ⟨hin, hout⟩⟩
  constructor
  · intro hf
    have hfits (tie : Tie) (htie : tie ∈ f.ties) := (fits_iff hf.locations hf.names).mp (hf.fits tie htie)
    refine ⟨hpairwise.mp hf.locations, fun b hb => hpairwise.mp (hf.names b hb), fun b hb e he => (hways e).mp (hf.oneWay b hb e he),
      fun tie htie => (hfits tie htie).1, hpairwise.mp hf.drivers, fun tie htie => (hfits tie htie).2, ?_⟩
    exact (List.pairwise_filterMap.mp hf.operands).imp (bindings_ne_iff hf.locations hf.names).mp
  · intro hf
    have hlocations := hpairwise.mpr hf.locations
    have hnames (b : Block) (hb : b ∈ f.blocks) := hpairwise.mpr (hf.names b hb)
    refine ⟨hlocations, hnames, fun b hb e he => (hways e).mpr (hf.directions b hb e he),
      fun tie htie => (fits_iff hlocations hnames).mpr ⟨hf.ends tie htie, hf.units tie htie⟩, hpairwise.mpr hf.drivers, ?_⟩
    exact List.pairwise_filterMap.mpr (hf.operands.imp (bindings_ne_iff hlocations hnames).mpr)

/-- **Validation is exact.** It accepts the admissible fabrics and no others. -/
theorem validate_exact : f.validate = .ok () ↔ f.Admissible := validate_eq_ok_iff.trans wellFormed_iff

end Fabric
end PlaceRoute
