import PlaceRoute.Proofs.Graph.Elide
import PlaceRoute.Proofs.Graph.Failure

/-!
# Where the nodes of a graph come from

A graph comes from a valid fabric over three drafts (`Draft.Stages`): one with the copies of all elements and the edges of all ties,
one that may have lost its registers, and one with ties on some edges between muxes. None of the steps between them changes what a
copy is, only how it is wired. So a node of the graph is the copy of the element at its place among all copies, or it is a tie that is
named after the edge that it splits (`Draft.Stages.node_cases`), and what was not taken out has its copies in the graph
(`Draft.Stages.exists_copy`).
-/

namespace PlaceRoute

variable {f : Fabric} {options : GraphOptions} {n n' : Node} {p : Placed} {e : Edge} {i j : NodeId}

/-- Whether a node is the copy of an element does not depend on its wiring. -/
theorem Node.IsCopy.congr (h : n.IsCopy p) (hbare : n'.bare = n.bare) : n'.IsCopy p := by
  obtain ⟨hkind, hshell⟩ := Prod.mk.inj hbare
  obtain ⟨-, hname, hcontext, hinputs, houtputs⟩ := Node.Shell.mk.inj hshell
  exact ⟨hcontext.trans h.context, hname.trans h.name, hkind ▸ h.kind, hinputs.trans h.inputs, houtputs.trans h.outputs⟩

namespace Graph

/-- The name that a tie on an edge gets among these nodes. -/
def spelling (node? : NodeId → Option Node) (e : Edge) : Option String :=
  (node? e.src).bind fun src => (node? e.dst).map fun dst => Draft.tieName src dst e

/-- It depends on the names of both ends and on the ports only. -/
theorem spelling_congr {node? node?' : NodeId → Option Node} {x : Edge}
    (hsrc : (node?' x.src).map (·.name) = (node? e.src).map (·.name)) (hsrcPort : x.srcPort = e.srcPort)
    (hdst : (node?' x.dst).map (·.name) = (node? e.dst).map (·.name)) (hdstPort : x.dstPort = e.dstPort) :
    spelling node?' x = spelling node? e := by
  have hnames (node? : NodeId → Option Node) (e : Edge) : spelling node? e = ((node? e.src).map (·.name)).bind fun src =>
      ((node? e.dst).map (·.name)).map fun dst => s!"Tie_{src}_{e.srcPort}_{dst}_{e.dstPort}" := by
    unfold spelling
    cases node? e.src <;> cases node? e.dst <;> rfl
  rw [hnames, hnames, hsrc, hsrcPort, hdst, hdstPort]

namespace Draft

variable {full base d d' : Draft} {cut : List Edge}

theorem map_name_node? (d : Draft) (i : NodeId) : (d.node? i).map (·.name) = (d.shell? i).map (·.name) := by
  rw [shell?, Option.map_map]
  rfl

/-! ## Sizes -/

theorem size_elideRegister (h : d.elideRegister i = .ok d') : d'.slots.size = d.slots.size := by
  unfold elideRegister at h
  obtain ⟨n, -, h⟩ := bind_eq_ok h
  dsimp only at h
  obtain ⟨d₁, h₁, h⟩ := bind_eq_ok h
  have hsize₁ := foldlM_induction (fun d' => d'.slots.size = d.slots.size) rfl (fun _ _ _ _ hd h => (size_unwire h).trans hd) h₁
  split at h
  · cases h
    exact Array.size_setIfInBounds.trans hsize₁
  · obtain ⟨d₂, h₂, h⟩ := bind_eq_ok h
    cases h
    exact Array.size_setIfInBounds.trans
      (foldlM_induction (fun d' => d'.slots.size = d.slots.size) hsize₁ (fun _ _ _ _ hd h => (size_wire h).trans hd) h₂)

theorem size_elideRegisters (h : d.elideRegisters = .ok d') : d'.slots.size = d.slots.size :=
  foldlM_induction (fun d' => d'.slots.size = d.slots.size) rfl (fun _ _ _ _ hd h => (size_elideRegister h).trans hd) h

/-! ## Names of ties -/

/-- A new tie is named after the edge that it splits. -/
theorem name_splitWithTie (hd : d.Sound) (h : d.splitWithTie e = .ok d') :
    (d'.shell? d.slots.size).map (·.name) = spelling d.node? e := by
  unfold splitWithTie at h
  obtain ⟨d₁, h₁, h⟩ := bind_eq_ok h
  obtain ⟨src, hsrc, h⟩ := bind_eq_ok h
  obtain ⟨dst, hdst, h⟩ := bind_eq_ok h
  obtain ⟨d₂, h₂, h⟩ := bind_eq_ok h
  have hadded : (d₁.addNode (tieName src dst e) src.context .tie [e.dstPort] [tieOutput e]).2.Sound := (hd.unwire h₁).addNode nofun
  have hsame (i : NodeId) : (d.node? i).map (·.name) = (d₁.node? i).map (·.name) := by
    rw [map_name_node?, map_name_node?, shell?_unwire hd h₁]
  rw [shell?_wire (hadded.wire h₂) h, shell?_wire hadded h₂, shell?_addNode, if_pos (size_unwire h₁).symm,
    spelling_congr (hsame _) rfl (hsame _) rfl, spelling, node_eq_ok hsrc, node_eq_ok hdst]
  rfl

/-- The draft `d` is `base` with ties on the edges of `cut`, each named after its edge, and its other nodes are the same. -/
structure Named (base d : Draft) (cut : List Edge) : Prop where
  splits : base.Splits d cut
  shell : ∀ i : Nat, i < base.slots.size → d.shell? i = base.shell? i
  spelled : ∀ {j : Nat} {e : Edge}, cut[j]? = some e → (d.shell? (base.slots.size + j)).map (·.name) = spelling base.node? e

theorem Named.refl (base : Draft) : base.Named base [] := ⟨.refl base, fun _ _ => rfl, nofun⟩

theorem Named.splitWithTie (h : base.Named d cut) (hd : d.Sound) (hsrc : d.kind? e.src = some .mux)
    (hdst : d.kind? e.dst = some .mux) (hsplit : d.splitWithTie e = .ok d') : base.Named d' (cut ++ [e]) := by
  have hs := h.splits
  have hsrc := hs.kind?_mux.mp hsrc
  have hdst := hs.kind?_mux.mp hdst
  have hkept {i : Nat} (hi : i < d.slots.size) : d'.shell? i = d.shell? i := shell?_splitWithTie hd hsplit hi
  have hsize := hs.size
  refine ⟨hs.splitWithTie hd hsplit hsrc hdst, fun i hi => ?_, fun {j x} hx => ?_⟩
  · rw [hkept (by omega), h.shell i hi]
  · rcases getElem?_concat_eq_some_iff.mp hx with hx | ⟨rfl, rfl⟩
    · have hj := (List.getElem?_eq_some_iff.mp hx).1
      rw [hkept (by omega), h.spelled hx]
    · have hsame {i : Nat} (hi : base.kind? i = some .mux) : (d.node? i).map (·.name) = (base.node? i).map (·.name) := by
        rw [map_name_node?, map_name_node?, h.shell i (kind?_lt hi)]
      rw [← hsize, name_splitWithTie hd hsplit, spelling_congr (hsame hsrc) rfl (hsame hdst) rfl]

/-- Breaking cycles puts named ties in. -/
theorem exists_named {policy : CycleBreak} (hd : base.Sound) (h : base.breakCycles policy = .ok d) : ∃ cut, base.Named d cut :=
  breakCycles_joined_induction (P := fun d => ∃ cut, base.Named d cut)
    (fun ⟨_, hn⟩ hd hsrc hdst h => ⟨_, hn.splitWithTie hd hsrc hdst h⟩) hd ⟨[], .refl base⟩ h

/-! ## The drafts on the way to a graph -/

/-- The drafts on the way from a fabric to a graph: with all copies and the edges of all ties, without registers when these are taken
out, and with ties on the edges of `cut`. -/
structure Stages (f : Fabric) (options : GraphOptions) (full base d : Draft) (cut : List Edge) : Prop where
  full_sound : full.Sound
  holds : full.Holds (f.copies options.contexts)
  carries : full.Carries (f.edges options.contexts)
  elided : (if options.contexts = 1 ∧ options.registers = .elide then full.elideRegisters else pure full) = .ok base
  base_sound : base.Sound
  base_tidy : base.Tidy
  named : base.Named d cut
  sound : d.Sound

/-- Every graph of a valid fabric comes over such drafts. -/
theorem exists_stages {g : Graph} (hf : f.WellFormed) (h : build f options = .ok g) :
    ∃ full base d cut, Stages f options full base d cut ∧ d.finish options.contexts = .ok g := by
  obtain ⟨base, d, hbase, hd, -, hg⟩ := build_eq_ok h
  obtain ⟨d₁, full, h₁, h₂, helided⟩ := unbroken_eq_ok hbase
  have hb := sound_unbroken hbase
  obtain ⟨cut, hnamed⟩ := exists_named hb hd
  have hsound₁ := instantiate_induction Sound.addCopy sound_empty h₁
  have hcarries : d₁.Carries [] := ⟨iff_of_false (not_has_instantiate h₁ _) List.not_mem_nil, List.nodup_nil⟩
  obtain ⟨hfull, hholds, hcarries⟩ := wireTies_eq_ok hf hsound₁ (holds_instantiate h₁) hcarries h₂
  exact ⟨full, base, d, cut, ⟨hfull, hholds, hcarries, helided, hb, tidy_unbroken hbase, hnamed, hb.breakCycles hd⟩, hg⟩

namespace Stages

variable (h : Stages f options full base d cut)
include h

theorem size_base : base.slots.size = full.slots.size := by
  have helided := h.elided
  split at helided
  · exact size_elideRegisters helided
  · cases helided
    rfl

/-- What is taken out are registers only, and the other nodes do not change but for their wiring. -/
theorem bare?_base : base.bare? i = if (options.contexts = 1 ∧ options.registers = .elide) ∧ full.kind? i = some .register then none
    else full.bare? i := by
  have helided := h.elided
  split at helided
  · next hcond =>
    rw [bare?_elideRegisters h.full_sound helided]
    simp only [hcond, and_self, true_and]
  · next hcond =>
    cases helided
    rw [if_neg fun hboth => hcond hboth.1]

/-- The nodes that were there before cycles were broken do not change but for their wiring. -/
theorem bare?_old (hi : i < base.slots.size) : d.bare? i = base.bare? i := by
  rw [bare?_eq, bare?_eq, h.named.splits.old i hi, h.named.shell i hi]

/-- A node is the copy of the element at its place before cycles are broken. -/
theorem exists_placed (hn : base.node? i = some n) : ∃ p, (f.copies options.contexts)[i]? = some p ∧ n.IsCopy p := by
  have hplace : i < (f.copies options.contexts).length := h.holds.size ▸ h.size_base ▸ node?_lt hn
  obtain ⟨m, hm, hcopy⟩ := h.holds.node (List.getElem?_eq_getElem hplace)
  have hbare : base.bare? i = some n.bare := by
    rw [bare?, hn]
    rfl
  rw [h.bare?_base] at hbare
  split at hbare
  · cases hbare
  · rw [bare?, hm] at hbare
    exact ⟨_, List.getElem?_eq_getElem hplace, hcopy.congr (Option.some.inj hbare).symm⟩

/-- It still is when they were broken. -/
theorem exists_placed_of_lt (hi : i < base.slots.size) (hn : d.node? i = some n) :
    ∃ p, (f.copies options.contexts)[i]? = some p ∧ n.IsCopy p := by
  have hbare : base.bare? i = some n.bare := by
    rw [← h.bare?_old hi, bare?, hn]
    rfl
  obtain ⟨m, hm, hmn⟩ := Option.map_eq_some_iff.mp hbare
  obtain ⟨p, hp, hcopy⟩ := h.exists_placed hm
  exact ⟨p, hp, hcopy.congr hmn.symm⟩

/-- Copies of one thing are one copy. -/
theorem eq_of_copy {q : Placed} (hp : (f.copies options.contexts)[i]? = some p) (hq : (f.copies options.contexts)[j]? = some q)
    (hcopy : p.copy = q.copy) : i = j := by
  have hi : ((f.copies options.contexts).map (·.copy))[i]? = some p.copy := by rw [List.getElem?_map, hp]; rfl
  have hj : ((f.copies options.contexts).map (·.copy))[j]? = some q.copy := by rw [List.getElem?_map, hq]; rfl
  exact (List.getElem?_inj (List.getElem?_eq_some_iff.mp hi).1 h.holds.nodup).mp (hi.trans (hcopy ▸ hj.symm))

/-- A copy that was not taken out is a node. -/
theorem exists_copy_draft (hp : (f.copies options.contexts)[i]? = some p)
    (hkept : ¬(options.contexts = 1 ∧ options.registers = .elide) ∨ p.element.isRegister = false) :
    i < base.slots.size ∧ ∃ n, d.node? i = some n ∧ n.IsCopy p := by
  obtain ⟨m, hm, hcopy⟩ := h.holds.node hp
  have hi : i < base.slots.size := h.size_base ▸ node?_lt hm
  have hbare : d.bare? i = some m.bare := by
    rw [h.bare?_old hi, h.bare?_base, if_neg, bare?, hm]
    · rfl
    rintro ⟨helided, hregister⟩
    rw [kind?_of_node? hm] at hregister
    have hkind := hcopy.kind.isRegister_eq
    rw [hkept.resolve_left (not_not.mpr helided), Node.isRegister, Option.some.inj hregister] at hkind
    cases hkind
  obtain ⟨n, hn, hnm⟩ := Option.map_eq_some_iff.mp hbare
  exact ⟨hi, n, hn, hcopy.congr hnm⟩

variable {g : Graph} (hg : d.finish options.contexts = .ok g)
include hg

/-- A node of the graph is the copy of the element at its place, or a tie that is named after the edge that it splits. -/
theorem node_cases (hj : g.node? j = some n) :
    (∃ i p, d.ids[j]? = some i ∧ i < base.slots.size ∧ (f.copies options.contexts)[i]? = some p ∧ n.IsCopy p) ∨
    ∃ k e, cut[k]? = some e ∧ d.ids[j]? = some (base.slots.size + k) ∧ n.kind = .tie ∧ spelling base.node? e = some n.name := by
  obtain ⟨m, hid, hm, hrenumber⟩ := (node?_finish h.sound hg).mp hj
  by_cases hold : m.id < base.slots.size
  · obtain ⟨p, hp, hcopy⟩ := h.exists_placed_of_lt hold hm
    exact Or.inl ⟨m.id, p, hid, hold, hp, isCopy_renumber (nodup_ids h.sound) hcopy hrenumber⟩
  · obtain ⟨k, hk⟩ := Nat.exists_eq_add_of_le (Nat.le_of_not_lt hold)
    have hlt : k < cut.length := Nat.lt_of_add_lt_add_left (hk ▸ h.named.splits.size ▸ node?_lt hm)
    have hkind := h.named.splits.tie k hlt
    have hname := h.named.spelled (List.getElem?_eq_getElem hlt)
    rw [← hk, kind?_of_node? hm] at hkind
    rw [← hk, shell?_of_node? hm] at hname
    refine Or.inr ⟨k, _, List.getElem?_eq_getElem hlt, hk ▸ hid, ?_, ?_⟩
    · rcases renumberKind_eq_ok (nodup_ids h.sound) (renumberNode_eq_ok hrenumber).2.2.1 with
        ⟨ops, operands, operands', hunit, -⟩ | ⟨-, hsame⟩
      · rw [hunit] at hkind
        cases hkind
      · exact hsame.trans (Option.some.inj hkind)
    · rw [← hname, (renumberNode_fixes hrenumber).1]
      rfl

/-- What was not taken out has its copies in the graph. -/
theorem exists_copy (hp : (f.copies options.contexts)[i]? = some p)
    (hkept : ¬(options.contexts = 1 ∧ options.registers = .elide) ∨ p.element.isRegister = false) :
    ∃ j n, d.ids[j]? = some i ∧ g.node? j = some n ∧ n.IsCopy p := by
  obtain ⟨-, m, hm, hcopy⟩ := h.exists_copy_draft hp hkept
  obtain ⟨j, hj⟩ := List.getElem?_of_mem ((mem_ids h.sound).mpr ⟨m, hm⟩)
  obtain rfl : m.id = i := h.sound.id hm
  obtain ⟨n, hn, hrenumber⟩ := exists_finish h.sound hg hj hm
  exact ⟨j, n, hj, hn, isCopy_renumber (nodup_ids h.sound) hcopy hrenumber⟩

end Stages

end Draft
end Graph
end PlaceRoute
