import PlaceRoute.Proofs.Graph.Tidy
import PlaceRoute.Proofs.Graph.Ties

/-!
# Two ways to break cycles

Before cycles are broken a draft has no tie nodes (`Draft.untied_unbroken`). So the two graphs of a fabric are one graph with
ties on some edges between muxes and with ties on all of them (`exists_tied_of_build`).
-/

namespace PlaceRoute
namespace Graph
namespace Draft

variable {d d' : Draft} {f : Fabric} {options : GraphOptions} {e : Edge}

/-! ## Kinds of nodes when registers are taken out -/

/-- Taking a register out keeps all other nodes of a kind other than units. -/
theorem kind?_elideRegister {r i : NodeId} {k : NodeKind} (hd : d.Sound) (h : d.elideRegister r = .ok d')
    (hk : (k matches .functionalUnit _ _) = false) : d'.kind? i = some k ↔ d.kind? i = some k ∧ i ≠ r := by
  unfold Draft.elideRegister at h
  obtain ⟨register, -, h⟩ := bind_eq_ok h
  dsimp only at h
  obtain ⟨d₁, h₁, h⟩ := bind_eq_ok h
  have hd₁ : d₁.Sound ∧ (d₁.kind? i = some k ↔ d.kind? i = some k) :=
    foldlM_induction (fun d' => d'.Sound ∧ (d'.kind? i = some k ↔ d.kind? i = some k)) ⟨hd, Iff.rfl⟩
      (fun _ _ _ _ hd h => ⟨hd.1.unwire h, (kind?_unwire_of_routing hd.1 h hk).trans hd.2⟩) h₁
  have hremove {d₂ : Draft} (hd₂ : d₂.kind? i = some k ↔ d.kind? i = some k) :
      (d₂.removeNode r).kind? i = some k ↔ d.kind? i = some k ∧ i ≠ r := by
    rw [kind?_removeNode, ← hd₂]
    split
    · next hi => exact iff_of_false nofun fun h => h.2 hi
    · next hi => exact (and_iff_left hi).symm
  split at h
  · cases h
    exact hremove hd₁.2
  · obtain ⟨d₂, h₂, h⟩ := bind_eq_ok h
    cases h
    exact hremove (foldlM_induction (fun d' => d'.Sound ∧ (d'.kind? i = some k ↔ d.kind? i = some k)) hd₁
      (fun _ _ _ _ hd h => ⟨hd.1.wire h, (kind?_wire_of_routing hd.1 h hk).trans hd.2⟩) h₂).2

/-! ## No ties before cycles are broken -/

/-- No node is a tie. -/
def Untied (d : Draft) : Prop := ∀ i, d.kind? i ≠ some .tie

theorem untied_empty : empty.Untied := fun _ => nofun

theorem Untied.addCopy {context : Nat} {location : Location} {element : Element} (hu : d.Untied)
    (h : Draft.addCopy context location d element = .ok d') : d'.Untied := by
  have hkind : kindOf element ≠ .tie := by
    cases element with
    | ofInstance i =>
      unfold kindOf
      dsimp only
      split <;> nofun
    | ofMux m => nofun
    | ofOperandPort p => nofun
  unfold Draft.addCopy at h
  dsimp only at h
  split at h
  · cases h
  · cases h
    intro i
    show (d.addNode _ _ (kindOf element) _ _).2.kind? i ≠ some .tie
    rw [kind?_addNode]
    split
    · exact fun htie => hkind (Option.some.inj htie)
    · exact hu i

theorem Untied.wire (hd : d.Sound) (hu : d.Untied) (h : d.wire e = .ok d') : d'.Untied :=
  fun i htie => hu i ((kind?_wire_of_routing hd h rfl).mp htie)

theorem Untied.elideRegister {r : NodeId} (hd : d.Sound) (hu : d.Untied) (h : d.elideRegister r = .ok d') : d'.Untied :=
  fun i htie => hu i ((kind?_elideRegister hd h rfl).mp htie).1

theorem untied_unbroken (h : unbroken f options = .ok d) : d.Untied :=
  (unbroken_induction (P := fun d => d.Sound ∧ d.Untied) ⟨sound_empty, untied_empty⟩
    (fun hd h => ⟨hd.1.addCopy h, hd.2.addCopy h⟩) (fun hd h => ⟨hd.1.wire h, hd.2.wire hd.1 h⟩)
    (fun hd h => ⟨hd.1.elideRegister h, hd.2.elideRegister hd.1 h⟩) h).2

end Draft

/-- The two graphs of a fabric are one graph without ties, tied on some edges between muxes and tied on all of them. -/
theorem exists_tied_of_build {f : Fabric} {options : GraphOptions} {g₁ g₂ : Graph}
    (h₁ : build f { options with cycleBreak := .backEdges } = .ok g₁)
    (h₂ : build f { options with cycleBreak := .allMuxEdges } = .ok g₂) :
    ∃ (g₀ : Graph) (whole₁ whole₂ : NodeId → NodeId → Prop) (ends₁ ends₂ : List (NodeId × NodeId)),
      g₀.WellWired ∧ (∀ i, g₀.kind? i ≠ some .tie) ∧ g₀.Tied g₁ whole₁ ends₁ ∧ g₀.Tied g₂ whole₂ ends₂ ∧
      ∀ x y, whole₂ x y → whole₁ x y ∧ ¬ (g₀.kind? x = some .mux ∧ g₀.kind? y = some .mux) := by
  obtain ⟨base, d₁, hbase, hd₁, -, h₁⟩ := Draft.build_eq_ok h₁
  obtain ⟨base', d₂, hbase', hd₂, -, h₂⟩ := Draft.build_eq_ok h₂
  obtain rfl : base = base' := Except.ok.inj (hbase.symm.trans hbase')
  have hb := Draft.sound_unbroken hbase
  obtain ⟨g₀, h₀⟩ := hb.exists_finish (Draft.tidy_unbroken hbase) options.contexts
  obtain ⟨cut, hs₁⟩ := Draft.exists_splits_of_breakCycles hb hd₁
  have hs₂ := Draft.splits_of_allMuxEdges hb hd₂
  refine ⟨g₀, _, _, _, _, Draft.wellWired_finish hb h₀, fun i htie => ?_, hs₁.tied hb (hb.breakCycles hd₁) h₀ h₁,
    hs₂.tied hb (hb.breakCycles hd₂) h₀ h₂, ?_⟩
  · obtain ⟨p, -, htie⟩ := (Draft.kind?_finish_of_routing hb h₀ (k := .tie) rfl).mp htie
    exact Draft.untied_unbroken hbase p htie
  · rintro x y ⟨e, ⟨he, hcut⟩, hx, hy⟩
    rw [Draft.mem_allMuxEdges hb] at hcut
    refine ⟨⟨e, ⟨he, fun hmem => hcut (hs₁.joins e hmem)⟩, hx, hy⟩, fun ⟨hsrc, hdst⟩ => hcut ⟨he, ?_, ?_⟩⟩
    · obtain ⟨p, hp, hk⟩ := (Draft.kind?_finish_of_routing hb h₀ (k := .mux) rfl).mp hsrc
      exact Option.some.inj (hx.symm.trans hp) ▸ hk
    · obtain ⟨p, hp, hk⟩ := (Draft.kind?_finish_of_routing hb h₀ (k := .mux) rfl).mp hdst
      exact Option.some.inj (hy.symm.trans hp) ▸ hk

end Graph
end PlaceRoute
