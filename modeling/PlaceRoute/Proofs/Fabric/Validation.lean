import PlaceRoute.Fabric.Validation
import PlaceRoute.Proofs.Success

/-!
# Valid fabrics are well formed

What each check of `Fabric.validate` is about: names and locations are new (`checkElements_eq_ok_iff`, `checkBlocks_eq_ok_iff`), and
a tie fits the fabric and takes what no tie before it took (`checkTie_eq_ok_iff`). So a valid fabric is well formed as a whole
(`Fabric.wellFormed_of_validate`).
-/

namespace PlaceRoute

/-- No port is both an input and an output. -/
def Element.OneWay (e : Element) : Prop := ∀ port ∈ e.outputPorts, port ∉ e.inputPorts

namespace Fabric

variable {f : Fabric} {tie : Tie} {taken taken' : Taken} {location : Location}

/-- The operand that a tie from an operand port binds at a unit, with the location and name of the unit. -/
def binding? (f : Fabric) (tie : Tie) : Option (Location × String × Nat) :=
  match f.resolve tie.dst, f.resolve tie.src with
  | some (.ofInstance i), some (.ofOperandPort p) =>
    if i.kind = .functionalUnit then some (tie.dst.location, i.name, p.operand) else none
  | _, _ => none

/-- A tie leads from an output port to an input port, and to a unit from an operand port. -/
structure Fits (f : Fabric) (tie : Tie) : Prop where
  source : ∃ e, f.resolve tie.src = some e ∧ tie.src.port ∈ e.outputPorts
  target : ∃ e, f.resolve tie.dst = some e ∧ tie.dst.port ∈ e.inputPorts
  unit : ∀ i, f.resolve tie.dst = some (.ofInstance i) → i.kind = .functionalUnit → ∃ p, f.resolve tie.src = some (.ofOperandPort p)

/-- Names are unambiguous, and ties connect ports that exist, with one driver for an input and one port for an operand. -/
structure WellFormed (f : Fabric) : Prop where
  locations : (f.blocks.map (·.location)).Nodup
  names : ∀ b ∈ f.blocks, (b.elements.map (·.name)).Nodup
  oneWay : ∀ b ∈ f.blocks, ∀ e ∈ b.elements, e.OneWay
  fits : ∀ tie ∈ f.ties, f.Fits tie
  drivers : (f.ties.map (·.dst)).Nodup
  operands : (f.ties.filterMap f.binding?).Nodup

/-! ## Names -/

theorem checkElements_eq_ok_iff {seen : List String} {elements : List Element} : checkElements location seen elements = .ok () ↔
    (elements.map (·.name)).Nodup ∧ (∀ e ∈ elements, e.name ∉ seen) ∧ ∀ e ∈ elements, e.OneWay := by
  induction elements generalizing seen with
  | nil => simp [checkElements]
  | cons e elements ih =>
    unfold checkElements
    split
    · next hseen => exact iff_of_false nofun fun h => h.2.1 e List.mem_cons_self hseen
    next hnew =>
    split
    · next port hport =>
      have hin := List.find?_some hport
      rw [decide_eq_true_iff] at hin
      exact iff_of_false nofun fun h => h.2.2 e List.mem_cons_self port (List.mem_of_find?_eq_some hport) hin
    next hports =>
    have hway : e.OneWay := fun port hport => of_decide_eq_false (Bool.eq_false_iff.mpr (List.find?_eq_none.mp hports port hport))
    rw [ih, List.map_cons, List.nodup_cons, List.forall_mem_cons, List.forall_mem_cons]
    constructor
    · rintro ⟨hnodup, hseen, hways⟩
      refine ⟨⟨fun hmem => ?_, hnodup⟩, ⟨hnew, fun x hx hmem => hseen x hx (List.mem_cons_of_mem _ hmem)⟩, hway, hways⟩
      obtain ⟨x, hx, hname⟩ := List.mem_map.mp hmem
      exact hseen x hx (hname ▸ List.mem_cons_self)
    · rintro ⟨⟨hname, hnodup⟩, ⟨-, hseen⟩, -, hways⟩
      refine ⟨hnodup, fun x hx hmem => ?_, hways⟩
      rcases List.mem_cons.mp hmem with heq | hmem
      · exact hname (heq ▸ List.mem_map_of_mem hx)
      · exact hseen x hx hmem

theorem checkBlocks_eq_ok_iff {seen : List Location} {blocks : List Block} : checkBlocks seen blocks = .ok () ↔
    (blocks.map (·.location)).Nodup ∧ (∀ b ∈ blocks, b.location ∉ seen) ∧
      ∀ b ∈ blocks, (b.elements.map (·.name)).Nodup ∧ ∀ e ∈ b.elements, e.OneWay := by
  induction blocks generalizing seen with
  | nil => simp [checkBlocks]
  | cons b blocks ih =>
    unfold checkBlocks
    split
    · next hseen => exact iff_of_false nofun fun h => h.2.1 b List.mem_cons_self hseen
    next hnew =>
    have hbind : (do checkElements b.location [] b.elements; checkBlocks (b.location :: seen) blocks) = .ok () ↔
        checkElements b.location [] b.elements = .ok () ∧ checkBlocks (b.location :: seen) blocks = .ok () := by
      cases checkElements b.location [] b.elements with
      | error e => exact iff_of_false nofun fun h => nomatch h.1
      | ok u => exact (and_iff_right rfl).symm
    rw [hbind, checkElements_eq_ok_iff, ih, List.map_cons, List.nodup_cons, List.forall_mem_cons, List.forall_mem_cons]
    constructor
    · rintro ⟨⟨hnames, -, hways⟩, hnodup, hseen, hrest⟩
      refine ⟨⟨fun hmem => ?_, hnodup⟩, ⟨hnew, fun x hx hmem => hseen x hx (List.mem_cons_of_mem _ hmem)⟩, ⟨hnames, hways⟩, hrest⟩
      obtain ⟨x, hx, hlocation⟩ := List.mem_map.mp hmem
      exact hseen x hx (hlocation ▸ List.mem_cons_self)
    · rintro ⟨⟨hlocation, hnodup⟩, ⟨-, hseen⟩, ⟨hnames, hways⟩, hrest⟩
      refine ⟨⟨hnames, fun _ _ => List.not_mem_nil, hways⟩, hnodup, fun x hx hmem => ?_, hrest⟩
      rcases List.mem_cons.mp hmem with heq | hmem
      · exact hlocation (heq ▸ List.mem_map_of_mem hx)
      · exact hseen x hx hmem

/-! ## Ties -/

/-- What is taken after one more tie. -/
def Taken.after (taken : Taken) (f : Fabric) (tie : Tie) : Taken :=
  ⟨tie.dst :: taken.inputs, (f.binding? tie).toList ++ taken.operands⟩

theorem binding?_unit {i : Instance} {p : OperandPort} (hdst : f.resolve tie.dst = some (.ofInstance i))
    (hunit : i.kind = .functionalUnit) (hsrc : f.resolve tie.src = some (.ofOperandPort p)) :
    f.binding? tie = some (tie.dst.location, i.name, p.operand) := by
  unfold binding?
  rw [hdst, hsrc]
  exact if_pos hunit

theorem binding?_routing {dst : Element} (hdst : f.resolve tie.dst = some dst)
    (hrouting : ∀ i, dst = .ofInstance i → i.kind ≠ .functionalUnit) : f.binding? tie = none := by
  unfold binding?
  rw [hdst]
  split
  · next i p hi _ => exact if_neg (hrouting i (Option.some.inj hi))
  · rfl

/-- A tie passes if it fits, its input is free and the unit that it leads to does not bind its operand. -/
theorem checkTie_eq_ok (h : checkTie f taken tie = .ok taken') :
    f.Fits tie ∧ tie.dst ∉ taken.inputs ∧ (∀ b ∈ f.binding? tie, b ∉ taken.operands) ∧ taken' = taken.after f tie := by
  unfold checkTie at h
  cases hsrc : f.resolve tie.src with
  | none =>
    rw [hsrc] at h
    cases h
  | some src =>
  rw [hsrc] at h
  dsimp only at h
  split at h
  · cases h
  next hout =>
  cases hdst : f.resolve tie.dst with
  | none =>
    rw [hdst] at h
    cases h
  | some dst =>
  rw [hdst] at h
  dsimp only at h
  split at h
  · cases h
  next hin =>
  split at h
  · cases h
  next hfree =>
  have hsource : ∃ e, f.resolve tie.src = some e ∧ tie.src.port ∈ e.outputPorts := ⟨src, hsrc, not_not.mp hout⟩
  have htarget : ∃ e, f.resolve tie.dst = some e ∧ tie.dst.port ∈ e.inputPorts := ⟨dst, hdst, not_not.mp hin⟩
  -- A tie that leads to no unit takes only its input.
  have hother (hrouting : ∀ i, dst = .ofInstance i → i.kind ≠ .functionalUnit)
      (htaken : (.ok { taken with inputs := tie.dst :: taken.inputs } : Except Error Taken) = .ok taken') :
      f.Fits tie ∧ tie.dst ∉ taken.inputs ∧ (∀ b ∈ f.binding? tie, b ∉ taken.operands) ∧ taken' = taken.after f tie := by
    have hbinding := binding?_routing hdst hrouting
    refine ⟨⟨hsource, htarget, fun i hi hunit => ?_⟩, hfree, by simp [hbinding], ?_⟩
    · exact absurd hunit (hrouting i (Option.some.inj (hdst.symm.trans hi)))
    · rw [Taken.after, hbinding, ← Except.ok.inj htaken]
      rfl
  split at h
  · next i =>
    split at h
    · next hunit =>
      split at h
      · next p =>
        split at h
        · cases h
        next hnew =>
        cases h
        have hbinding := binding?_unit hdst hunit hsrc
        refine ⟨⟨hsource, htarget, fun _ _ _ => ⟨p, hsrc⟩⟩, hfree, ?_, ?_⟩
        · rw [hbinding]
          rintro b ⟨⟩
          exact hnew
        · rw [Taken.after, hbinding]
          rfl
      · cases h
    · next hregister =>
      refine hother (fun i' hi => ?_) h
      cases hi
      exact hregister
  · next hno => exact hother (fun i hi => absurd hi (hno i)) h

/-- Ties pass one after the other if all fit and none takes what another one takes. -/
theorem checkTies_eq_ok {ties : List Tie} (h : ties.foldlM (checkTie f) taken = .ok taken') :
    (∀ tie ∈ ties, f.Fits tie) ∧ (ties.map (·.dst)).Nodup ∧ (∀ tie ∈ ties, tie.dst ∉ taken.inputs) ∧
      (ties.filterMap f.binding?).Nodup ∧ ∀ b ∈ ties.filterMap f.binding?, b ∉ taken.operands := by
  induction ties generalizing taken with
  | nil => simp
  | cons tie ties ih =>
    rw [List.foldlM_cons] at h
    obtain ⟨taken₁, h₁, h⟩ := bind_eq_ok h
    obtain ⟨hfits, hfree, hnew, rfl⟩ := checkTie_eq_ok h₁
    obtain ⟨hall, hinputs, hinputsNew, hoperands, hoperandsNew⟩ := ih h
    refine ⟨List.forall_mem_cons.mpr ⟨hfits, hall⟩, List.nodup_cons.mpr ⟨fun hmem => ?_, hinputs⟩,
      List.forall_mem_cons.mpr ⟨hfree, fun x hx hmem => hinputsNew x hx (List.mem_cons_of_mem _ hmem)⟩, ?_, ?_⟩
    · obtain ⟨x, hx, hdst⟩ := List.mem_map.mp hmem
      exact hinputsNew x hx (hdst ▸ List.mem_cons_self)
    · rw [List.filterMap_cons]
      split
      · exact hoperands
      · next b hb =>
        refine List.nodup_cons.mpr ⟨fun hmem => hoperandsNew b hmem ?_, hoperands⟩
        exact List.mem_append_left _ (Option.mem_toList.mpr hb)
    · intro b hb hmem
      rw [List.filterMap_cons] at hb
      split at hb
      · exact hoperandsNew b hb (List.mem_append_right _ hmem)
      · next b' hb' =>
        rcases List.mem_cons.mp hb with rfl | hb
        · exact hnew b hb' hmem
        · exact hoperandsNew b hb (List.mem_append_right _ hmem)

/-- A valid fabric is well formed. -/
theorem wellFormed_of_validate (h : f.validate = .ok ()) : f.WellFormed := by
  unfold validate at h
  obtain ⟨⟨⟩, hblocks, h⟩ := bind_eq_ok h
  obtain ⟨taken, hties, -⟩ := bind_eq_ok h
  obtain ⟨hlocations, -, helements⟩ := checkBlocks_eq_ok_iff.mp hblocks
  obtain ⟨hfits, hdrivers, -, hoperands, -⟩ := checkTies_eq_ok hties
  exact ⟨hlocations, fun b hb => (helements b hb).1, fun b hb => (helements b hb).2, hfits, hdrivers, hoperands⟩

end Fabric
end PlaceRoute
