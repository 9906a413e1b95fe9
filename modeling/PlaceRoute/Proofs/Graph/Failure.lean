import Mathlib.Data.List.Pairwise
import Mathlib.Data.Nat.ModEq
import PlaceRoute.Proofs.Graph.Contract
import PlaceRoute.Proofs.Graph.Copies

/-!
# Failures of building

Building a graph from a valid fabric fails at most because of a short loop (`isLoop_of_build_eq_error`). The elements of a valid
fabric have different names, so each gets its copies (`Draft.exists_instantiate`). Its ties lead to different inputs
(`Fabric.WellFormed.eq_of_target`) and bind different operands (`Fabric.WellFormed.eq_of_binding`), so each can be wired in every
context (`Draft.failsOnly_wireTies`). What comes later rests on how drafts are wired, not on the fabric.
-/

namespace PlaceRoute

variable {f : Fabric} {contexts context context' : Nat} {a a' : Address} {e e' : Element} {tie tie' : Tie} {p q : Nat × Tie}

/-- Two entries that give the same by a partial function are one entry, if no result comes twice. -/
theorem eq_of_nodup_filterMap {α β : Type} {g : α → Option β} {l : List α} (h : (l.filterMap g).Nodup) {x y : α} {b : β}
    (hx : x ∈ l) (hy : y ∈ l) (hxb : g x = some b) (hyb : g y = some b) : x = y := by
  by_contra hne
  have hapart : l.Pairwise fun x y => ∀ b ∈ g x, b ∉ g y :=
    (List.pairwise_filterMap.mp h).imp fun {x y} hxy b hb hb' => hxy b hb b hb' rfl
  have hsymm : Std.Symm fun x y => ∀ b ∈ g x, b ∉ g y := ⟨fun x y hxy b hb hb' => hxy b hb' hb⟩
  exact hapart.forall hx hy hne b hxb hyb

namespace Fabric
namespace WellFormed

variable (hf : f.WellFormed)
include hf

/-! ## Names of copies -/

/-- Elements have different locations or names. -/
theorem nodup_parts : (f.parts.map fun p => (p.1, p.2.name)).Nodup := by
  unfold parts
  simp only [List.map_flatMap, List.map_map]
  refine List.nodup_flatMap.mpr ⟨fun b hb => ?_, (List.pairwise_map.mp hf.locations).imp fun {b b'} hne x hx hx' => ?_⟩
  · have hnames : ((b.elements.map (·.name)).map (b.location, ·)).Nodup :=
      (hf.names b hb).map fun _ _ h => (Prod.mk.inj h).2
    rwa [List.map_map] at hnames
  · obtain ⟨y, -, rfl⟩ := List.mem_map.mp hx
    obtain ⟨y', -, hy'⟩ := List.mem_map.mp hx'
    exact hne (congrArg Prod.fst hy').symm

/-- Copies have different names. -/
theorem nodup_copies : ((f.copies contexts).map (·.copy)).Nodup := by
  unfold copies
  simp only [List.map_flatMap, List.map_map]
  refine List.nodup_flatMap.mpr ⟨fun c _ => ?_, List.nodup_range.imp fun {c c'} hne x hx hx' => ?_⟩
  · have hparts := hf.nodup_parts.map (f := fun q : Location × String => Graph.Copy.mk c q.1 q.2) fun q q' h => by
      obtain ⟨-, hlocation, hname⟩ := Graph.Copy.mk.inj h
      exact Prod.ext hlocation hname
    rwa [List.map_map] at hparts
  · obtain ⟨y, -, rfl⟩ := List.mem_map.mp hx
    obtain ⟨y', -, hy'⟩ := List.mem_map.mp hx'
    exact hne (congrArg Graph.Copy.context hy').symm

/-- Addresses that name one copy name one element in one context. -/
theorem eq_of_number (hcontext : context < contexts) (hcontext' : context' < contexts) (ha : f.resolve a = some e)
    (ha' : f.resolve a' = some e') (h : f.number contexts context a = f.number contexts context' a') :
    context = context' ∧ a.location = a'.location ∧ a.element = a'.element ∧ e = e' := by
  have hcopy := getElem?_number hf.nodup_copies hcontext ha
  rw [h, getElem?_number hf.nodup_copies hcontext' ha'] at hcopy
  obtain ⟨rfl, hlocation, rfl⟩ := Placed.mk.inj (Option.some.inj hcopy)
  refine ⟨rfl, hlocation.symm, ?_, rfl⟩
  rw [← (mem_parts_of_resolve ha).2, (mem_parts_of_resolve ha').2]

/-! ## Different steps have different targets -/

omit hf in
/-- A tie arrives in different contexts from different contexts. -/
theorem eq_of_arrival (hcontext : context < contexts) (hcontext' : context' < contexts)
    (h : f.arrival contexts context tie = f.arrival contexts context' tie) : context = context' := by
  unfold arrival at h
  split at h
  · have hmod : Nat.ModEq contexts context context' := Nat.ModEq.add_right_cancel' 1 h
    exact hmod.eq_of_lt_of_lt hcontext hcontext'
  · exact h

theorem nodup_steps : (f.steps contexts).Nodup := by
  unfold steps
  refine List.nodup_flatMap.mpr ⟨fun c _ => ?_, List.nodup_range.imp fun {c c'} hne x hx hx' => ?_⟩
  · exact hf.drivers.of_map.map fun _ _ h => (Prod.mk.inj h).2
  · obtain ⟨y, -, rfl⟩ := List.mem_map.mp hx
    obtain ⟨y', -, hy'⟩ := List.mem_map.mp hx'
    exact hne (congrArg Prod.fst hy').symm

section
variable (hp : p ∈ f.steps contexts) (hq : q ∈ f.steps contexts)
include hp hq

/-- Steps whose edges lead to one node lead to one element in one context. -/
theorem eq_of_dst (h : (f.edgeOf contexts p.1 p.2).dst = (f.edgeOf contexts q.1 q.2).dst) :
    f.arrival contexts p.1 p.2 = f.arrival contexts q.1 q.2 ∧ p.2.dst.location = q.2.dst.location ∧
      p.2.dst.element = q.2.dst.element := by
  obtain ⟨hpc, hpt⟩ := mem_steps.mp hp
  obtain ⟨hqc, hqt⟩ := mem_steps.mp hq
  obtain ⟨e, he, -⟩ := (hf.fits _ hpt).target
  obtain ⟨e', he', -⟩ := (hf.fits _ hqt).target
  obtain ⟨harrival, hlocation, helement, -⟩ := hf.eq_of_number (arrival_lt hpc) (arrival_lt hqc) he he' h
  exact ⟨harrival, hlocation, helement⟩

omit hf in
theorem eq_of_tie (htie : p.2 = q.2) (h : f.arrival contexts p.1 p.2 = f.arrival contexts q.1 q.2) : p = q := by
  rw [htie] at h
  exact Prod.ext (eq_of_arrival (mem_steps.mp hp).1 (mem_steps.mp hq).1 h) htie

/-- No two steps lead to one input. -/
theorem eq_of_target (h : (f.edgeOf contexts p.1 p.2).dst = (f.edgeOf contexts q.1 q.2).dst)
    (hport : p.2.dst.port = q.2.dst.port) : p = q := by
  obtain ⟨harrival, hlocation, helement⟩ := hf.eq_of_dst hp hq h
  have hdst : p.2.dst = q.2.dst := by
    cases hp2 : p.2.dst
    cases hq2 : q.2.dst
    rw [hp2, hq2] at hlocation helement hport
    exact Address.mk.injEq .. ▸ ⟨hlocation, helement, hport⟩
  exact eq_of_tie hp hq (List.inj_on_of_nodup_map hf.drivers (mem_steps.mp hp).2 (mem_steps.mp hq).2 hdst) harrival

/-- No two steps bind one operand of a unit. -/
theorem eq_of_binding (h : (f.edgeOf contexts p.1 p.2).dst = (f.edgeOf contexts q.1 q.2).dst) {b : Location × String × Nat}
    (hpb : f.binding? p.2 = some b) (hqb : f.binding? q.2 = some b) : p = q := by
  obtain ⟨harrival, -⟩ := hf.eq_of_dst hp hq h
  exact eq_of_tie hp hq (eq_of_nodup_filterMap hf.operands (mem_steps.mp hp).2 (mem_steps.mp hq).2 hpb hqb) harrival

end

end WellFormed
end Fabric

namespace Graph
namespace Draft

variable {d d' : Draft} {done : List Placed} {options : GraphOptions}

/-! ## Copies -/

theorem Holds.exists_addCopy {p : Placed} (h : d.Holds done) (hnew : p.copy ∉ done.map (·.copy)) :
    ∃ d', Draft.addCopy p.context p.location d p.element = .ok d' := by
  unfold Draft.addCopy
  dsimp only
  split
  · next hfound =>
    obtain ⟨i, hi⟩ := Option.isSome_iff_exists.mp hfound
    obtain ⟨q, hq, hcopy⟩ := h.lookup.mp hi
    exact absurd (List.mem_map.mpr ⟨q, List.mem_of_getElem? hq, hcopy⟩) hnew
  · exact ⟨_, rfl⟩

/-- Every element of a well-formed fabric gets its copies. -/
theorem exists_instantiate (hf : f.WellFormed) : ∃ d, empty.instantiate f contexts = .ok d := by
  have hall : ∃ d, (f.copies contexts).foldlM (fun d p => addCopy p.context p.location d p.element) empty = .ok d := by
    refine FailsOnly.exists_ok (FailsOnly.foldlM (fun d rest => ∃ done, d.Holds done ∧ ((done ++ rest).map (·.copy)).Nodup)
      ⟨[], .empty, hf.nodup_copies⟩ ?_)
    rintro d p rest ⟨done, hd, hnodup⟩
    have hnew : p.copy ∉ done.map (·.copy) := by
      rw [List.map_append, List.map_cons, List.nodup_append] at hnodup
      exact fun hmem => hnodup.2.2 _ hmem _ List.mem_cons_self rfl
    refine ⟨.of_ok (hd.exists_addCopy hnew), fun d' h => ⟨done ++ [p], hd.addCopy h, ?_⟩⟩
    rwa [List.append_assoc, List.singleton_append]
  simp only [Fabric.copies, Fabric.parts, foldlM_flatMap, List.foldlM_map] at hall
  exact hall

/-! ## Ties -/

section
variable (hf : f.WellFormed) (hd : d.Sound) (h : d.Holds (f.copies contexts))
include h

/-- A copy declares the ports of its element. -/
theorem Holds.hasOutput (hcontext : context < contexts) (ha : f.resolve a = some e) (hport : a.port ∈ e.outputPorts) :
    d.HasOutput (f.number contexts context a) a.port := by
  obtain ⟨n, hn, hcopy⟩ := h.node (Fabric.getElem?_number h.nodup hcontext ha)
  refine ⟨n.shell, shell?_of_node? hn, ?_⟩
  show a.port ∈ n.outputs.keys
  rw [hcopy.outputs]
  exact SortedSet.mem_ofList.mpr hport

theorem Holds.hasInput (hcontext : context < contexts) (ha : f.resolve a = some e) (hport : a.port ∈ e.inputPorts) :
    d.HasInput (f.number contexts context a) a.port := by
  obtain ⟨n, hn, hcopy⟩ := h.node (Fabric.getElem?_number h.nodup hcontext ha)
  refine ⟨n.shell, shell?_of_node? hn, ?_⟩
  show a.port ∈ n.inputs.keys
  rw [hcopy.inputs]
  exact SortedSet.mem_ofList.mpr hport

/-- What a node is says what its element is. -/
theorem Holds.becomes (hcontext : context < contexts) (ha : f.resolve a = some e) {k : NodeKind}
    (hk : d.kind? (f.number contexts context a) = some k) : e.Becomes k := by
  obtain ⟨n, hn, hcopy⟩ := h.node (Fabric.getElem?_number h.nodup hcontext ha)
  exact Option.some.inj ((kind?_of_node? hn).symm.trans hk) ▸ hcopy.kind

/-- The copy of an operand port is an operand port. -/
theorem Holds.kind?_operandPort (hcontext : context < contexts) {p : OperandPort} (ha : f.resolve a = some (.ofOperandPort p)) :
    d.kind? (f.number contexts context a) = some (.operandPort p.operand) := by
  obtain ⟨n, hn, hcopy⟩ := h.node (Fabric.getElem?_number h.nodup hcontext ha)
  have hkind := hcopy.kind
  rw [kind?_of_node? hn]
  generalize n.kind = k at hkind
  cases hkind
  rfl

include hf hd

/-- A unit takes the operand port of a tie, as no tie before it bound the operand. -/
theorem Holds.takes {before : List (Nat × Tie)} (hbefore : ∀ q ∈ before, q ∈ f.steps contexts)
    (hc : d.Carries (before.map fun q => f.edgeOf contexts q.1 q.2)) (hp : p ∈ f.steps contexts) (hnew : p ∉ before) :
    d.Takes (f.edgeOf contexts p.1 p.2).dst (f.edgeOf contexts p.1 p.2).src := by
  intro ops operands hunit
  obtain ⟨hpc, hpt⟩ := Fabric.mem_steps.mp hp
  obtain ⟨e, he, -⟩ := (hf.fits _ hpt).target
  have hbecomes := h.becomes (Fabric.arrival_lt hpc) he hunit
  cases hbecomes with
  | @unit i _ hkind =>
  obtain ⟨port, hport⟩ := (hf.fits _ hpt).unit i he hkind
  have hsrc := h.kind?_operandPort hpc hport
  refine ⟨port.operand, hsrc, Option.eq_none_iff_forall_ne_some.mpr fun driver hbound => ?_⟩
  -- Another port for the operand would come from a step that binds the same.
  obtain ⟨hdriver, x, hx, hxsrc, hxdst⟩ := (hd.binds.bound_iff hunit).mp hbound
  obtain ⟨q, hq, rfl⟩ := List.mem_map.mp (hc.has.mp hx)
  obtain ⟨hqc, hqt⟩ := Fabric.mem_steps.mp (hbefore q hq)
  obtain ⟨-, hlocation, helement⟩ := hf.eq_of_dst (hbefore q hq) hp hxdst
  have hqdst : f.resolve q.2.dst = some (.ofInstance i) := by
    rw [Fabric.resolve, hlocation, helement]
    exact he
  obtain ⟨port', hport'⟩ := (hf.fits _ hqt).unit i hqdst hkind
  have hoperand : port'.operand = port.operand := by
    have hsrc' := h.kind?_operandPort hqc hport'
    rw [show f.number contexts q.1 q.2.src = driver from hxsrc, hdriver] at hsrc'
    exact (NodeKind.operandPort.inj (Option.some.inj hsrc')).symm
  have hpb := Fabric.binding?_unit he hkind hport
  have hqb := Fabric.binding?_unit hqdst hkind hport'
  rw [hlocation, hoperand] at hqb
  exact hnew (hf.eq_of_binding (hbefore q hq) hp hxdst hqb hpb ▸ hq)

/-- Wiring a tie fails at most because its ends are one node, when those before it were wired. -/
theorem Holds.failsOnly_wireTie {before : List (Nat × Tie)} (hbefore : ∀ q ∈ before, q ∈ f.steps contexts)
    (hc : d.Carries (before.map fun q => f.edgeOf contexts q.1 q.2)) (hp : p ∈ f.steps contexts) (hnew : p ∉ before) :
    FailsOnly BuildError.IsLoop (wireTie contexts p.1 d p.2) := by
  obtain ⟨hpc, hpt⟩ := Fabric.mem_steps.mp hp
  have hfits := hf.fits _ hpt
  obtain ⟨src, hsrc, hout⟩ := hfits.source
  obtain ⟨dst, hdst, hin⟩ := hfits.target
  rw [wireTie_eq h hpc hfits]
  have hfails := failsOnly_wire (e := f.edgeOf contexts p.1 p.2) (h.hasOutput hpc hsrc hout)
    (h.hasInput (Fabric.arrival_lt hpc) hdst hin) (fun x hx hxdst hport => ?_) (h.takes hf hd hbefore hc hp hnew)
  · exact fun err herr => (hfails err herr).2
  · obtain ⟨q, hq, rfl⟩ := List.mem_map.mp (hc.has.mp hx)
    exact hnew (hf.eq_of_target (hbefore q hq) hp hxdst hport ▸ hq)

/-- Wiring all ties fails at most because the ends of one are one node. -/
theorem failsOnly_wireTies (hc : d.Carries []) : FailsOnly BuildError.IsLoop (d.wireTies f contexts) := by
  rw [wireTies_eq_foldlM]
  refine FailsOnly.foldlM (fun d rest => d.Sound ∧ d.Holds (f.copies contexts) ∧ ∃ before,
    f.steps contexts = before ++ rest ∧ d.Carries (before.map fun q => f.edgeOf contexts q.1 q.2)) ⟨hd, h, [], rfl, hc⟩ ?_
  rintro d p rest ⟨hd, h, before, hsteps, hc⟩
  have hbefore : ∀ q ∈ before, q ∈ f.steps contexts := fun q hq => hsteps ▸ List.mem_append_left _ hq
  have hp : p ∈ f.steps contexts := hsteps ▸ List.mem_append_right _ List.mem_cons_self
  have hnew : p ∉ before := fun hmem => (List.nodup_append.mp (hsteps ▸ hf.nodup_steps)).2.2 _ hmem _ List.mem_cons_self rfl
  obtain ⟨hpc, hpt⟩ := Fabric.mem_steps.mp hp
  refine ⟨h.failsOnly_wireTie hf hd hbefore hc hp hnew, fun d' hwire => ?_⟩
  rw [wireTie_eq h hpc (hf.fits _ hpt)] at hwire
  refine ⟨hd.wire hwire, h.wire hd hwire, before ++ [p], ?_, ?_⟩
  · rw [hsteps, List.append_assoc, List.singleton_append]
  · rw [List.map_append]
    exact hc.wire hd hwire

end

/-- What comes before cycles are broken fails at most because of an edge from a node to itself. -/
theorem failsOnly_unbroken (hf : f.WellFormed) : FailsOnly BuildError.IsLoop (unbroken f options) := by
  unfold unbroken
  refine FailsOnly.bind (.of_ok (exists_instantiate hf)) fun d₁ h₁ => ?_
  have hd₁ := instantiate_induction Sound.addCopy sound_empty h₁
  have hcarries : d₁.Carries [] := ⟨iff_of_false (not_has_instantiate h₁ _) List.not_mem_nil, List.nodup_nil⟩
  refine FailsOnly.bind (failsOnly_wireTies hf hd₁ (holds_instantiate h₁) hcarries) fun d₂ h₂ => ?_
  have htidy := wireTies_induction Tidy.wire (instantiate_induction Tidy.addCopy tidy_empty h₁) h₂
  split
  · exact failsOnly_elideRegisters (wireTies_induction Sound.wire hd₁ h₂) htidy
  · exact .of_ok ⟨_, rfl⟩

end Draft

theorem build_eq_bind {options : GraphOptions} (hcontexts : 1 ≤ options.contexts) : build f options = (do
    let base ← Draft.unbroken f options
    let d ← base.breakCycles options.cycleBreak
    d.checkShortLoops
    d.finish options.contexts) := by
  unfold build Draft.unbroken
  rw [if_neg (by omega)]
  simp only [bind_assoc, pure_bind]
  refine bind_congr fun d₁ => bind_congr fun d₂ => ?_
  split <;> rfl

/-- Building a graph from a valid fabric fails only because of short loops: whatever becomes of registers and of cycles, none of the
other failures can be reached. -/
theorem isLoop_of_build_eq_error {options : GraphOptions} {err : BuildError} (hf : f.validate = .ok ())
    (hcontexts : 1 ≤ options.contexts) (h : build f options = .error err) : err.IsLoop := by
  suffices hfails : FailsOnly BuildError.IsLoop (build f options) from hfails err h
  rw [build_eq_bind hcontexts]
  refine FailsOnly.bind (Draft.failsOnly_unbroken (Fabric.wellFormed_of_validate hf)) fun base hbase => ?_
  have hb := Draft.sound_unbroken hbase
  refine FailsOnly.bind (.of_ok (Draft.exists_breakCycles hb (Draft.tidy_unbroken hbase) _)) fun d hd => ?_
  have hsound := hb.breakCycles hd
  have htidy := Draft.breakCycles_induction Draft.Tidy.splitWithTie (Draft.tidy_unbroken hbase) hd
  exact FailsOnly.bind (Draft.failsOnly_checkShortLoops hsound) fun _ _ => .of_ok (hsound.exists_finish htidy _)

end Graph

/-- A mux that a register feeds back to itself. -/
def Fabric.looped : Fabric where
  blocks := [{
    location := ⟨0, 0⟩
    instances := [⟨"hold", .register, ["in"], ["out"], ∅⟩]
    muxes := [⟨"mux", ["in0"], "out"⟩]
    operandPorts := [] }]
  ties := [⟨⟨⟨0, 0⟩, "mux", "out"⟩, ⟨0, 0⟩, "hold", "in"⟩, ⟨⟨⟨0, 0⟩, "hold", "out"⟩, ⟨0, 0⟩, "mux", "in0"⟩]

/-- Without the register the mux drives itself. -/
theorem looped_isLoop : ∃ err, Fabric.looped.validate = .ok () ∧ Graph.build .looped {} = .error err ∧ err.IsLoop := by
  obtain ⟨err, h⟩ : ∃ err, Graph.build .looped {} = .error err := ⟨_, rfl⟩
  exact ⟨err, rfl, h, Graph.isLoop_of_build_eq_error rfl (Nat.le_refl 1) h⟩

end PlaceRoute
