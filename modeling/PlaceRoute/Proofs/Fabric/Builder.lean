import PlaceRoute.Fabric.Builder
import PlaceRoute.Proofs.Fabric.Exact
import PlaceRoute.Proofs.Sorted

/-!
# What calls of a builder leave behind

A block of the finished fabric holds what the calls for its location added, in their order (`FabricBuilder.instances_run`,
`FabricBuilder.operandPorts_run`), and the ties are those of the calls, in their order (`FabricBuilder.ties_run_append`). Where a
connection ends depends on the units declared before it (`FabricBuilder.isUnitInput_run_iff`). In a fabric that is valid this is every
unit with the input (`FabricBuilder.build_eq_error_of_early`), so connections to inputs of units end at their operand ports
(`FabricBuilder.mem_ties_of_connect`).
-/

namespace PlaceRoute
namespace FabricBuilder

/-- A call that adds something to a builder. -/
inductive Call where
  | functionalUnit (location : Location) (name : String) (ops inputs : List String)
  | register (location : Location) (name : String)
  | mux (location : Location) (name : String) (inputs : Nat)
  | connect (src dst : Address)

/-- The functional unit of a declaration. -/
def unitOf (name : String) (ops inputs : List String) : Instance := ⟨name, .functionalUnit, inputs, ["out"], SortedSet.ofList ops⟩

/-- The operand port for an input of a unit. -/
def portOf (unit input : String) (operand : Nat) : OperandPort := ⟨operandPortName unit input, "in", "out", operand⟩

/-- The tie from the operand port for an input of a unit to the input. -/
def feedOf (location : Location) (unit input : String) : Tie :=
  ⟨⟨location, operandPortName unit input, "out"⟩, ⟨location, unit, input⟩⟩

namespace Call

/-- The builder after a call. -/
def apply (b : FabricBuilder) : Call → FabricBuilder
  | functionalUnit location name ops inputs => b.functionalUnit location name ops inputs
  | register location name => b.register location name
  | mux location name inputs => b.mux location name inputs
  | connect src dst => b.connect src dst

/-- The units and registers that a call adds at a location. -/
def instances (l : Location) : Call → List Instance
  | functionalUnit location name ops inputs => if location = l then [unitOf name ops inputs] else []
  | register location name => if location = l then [⟨name, .register, ["in"], ["out"], ∅⟩] else []
  | _ => []

/-- The operand ports that a call adds at a location. -/
def operandPorts (l : Location) : Call → List OperandPort
  | functionalUnit location name _ inputs =>
    if location = l then inputs.zipIdx.map fun (input, operand) => portOf name input operand else []
  | _ => []

/-- The ties that a call adds to those of a builder. -/
def ties (b : FabricBuilder) : Call → List Tie
  | functionalUnit location name _ inputs => inputs.map (feedOf location name)
  | connect src dst => [⟨src, b.redirect dst⟩]
  | _ => []

end Call

/-- The builder after some calls. -/
def run (calls : List Call) : FabricBuilder := calls.foldl Call.apply new

/-- The block at a location, which is empty at first. -/
def blockAt (b : FabricBuilder) (l : Location) : Block := (b.blocks.get? l).getD (.empty l)

/-- The ties that some calls add to those of a builder. -/
def tiesFrom (b : FabricBuilder) : List Call → List Tie
  | [] => []
  | c :: calls => c.ties b ++ tiesFrom (c.apply b) calls

variable {b : FabricBuilder} {c : Call} {calls before after : List Call} {location l : Location} {a src dst : Address}
  {unit input : String} {ops inputs : List String} {j : Nat} {i : Instance} {e : Element} {f : Fabric}

/-! ## One call -/

theorem blockAt_modifyBlock {change : Block → Block} :
    (b.modifyBlock location change).blockAt l = if location = l then change (b.blockAt l) else b.blockAt l := by
  unfold blockAt modifyBlock SortedMap.alter
  dsimp only
  rw [SortedMap.get?_insert]
  split
  · next h =>
    subst h
    rfl
  · rfl

theorem blockAt_functionalUnit {name : String} : (b.functionalUnit location name ops inputs).blockAt l =
    if location = l then { b.blockAt l with
      instances := (b.blockAt l).instances ++ [unitOf name ops inputs]
      operandPorts := (b.blockAt l).operandPorts ++ inputs.zipIdx.map fun (input, operand) => portOf name input operand }
    else b.blockAt l :=
  @blockAt_modifyBlock b location l fun block => { block with
    instances := block.instances ++ [unitOf name ops inputs]
    operandPorts := block.operandPorts ++ inputs.zipIdx.map fun (input, operand) => portOf name input operand }

theorem blockAt_register {name : String} : (b.register location name).blockAt l =
    if location = l then { b.blockAt l with instances := (b.blockAt l).instances ++ [⟨name, .register, ["in"], ["out"], ∅⟩] }
    else b.blockAt l := blockAt_modifyBlock

theorem blockAt_mux {name : String} {k : Nat} : (b.mux location name k).blockAt l =
    if location = l then { b.blockAt l with muxes := (b.blockAt l).muxes ++ [⟨name, (List.range k).map (s!"in{·}"), "out"⟩] }
    else b.blockAt l := blockAt_modifyBlock

/-- A call adds to the block at its location only. -/
theorem blockAt_apply : ((c.apply b).blockAt l).location = (b.blockAt l).location ∧
    ((c.apply b).blockAt l).instances = (b.blockAt l).instances ++ c.instances l ∧
    ((c.apply b).blockAt l).operandPorts = (b.blockAt l).operandPorts ++ c.operandPorts l := by
  cases c with
  | functionalUnit =>
    simp only [Call.apply, Call.instances, Call.operandPorts, blockAt_functionalUnit]
    split <;> simp
  | register =>
    simp only [Call.apply, Call.instances, Call.operandPorts, blockAt_register]
    split <;> simp
  | mux =>
    simp only [Call.apply, Call.instances, Call.operandPorts, blockAt_mux]
    split <;> simp
  | connect => exact ⟨rfl, (List.append_nil _).symm, (List.append_nil _).symm⟩

theorem ties_apply : (c.apply b).ties = b.ties ++ c.ties b := by
  cases c with
  | functionalUnit => rfl
  | register => exact (List.append_nil _).symm
  | mux => exact (List.append_nil _).symm
  | connect => rfl

/-! ## All calls -/

theorem run_append : run (before ++ after) = after.foldl Call.apply (run before) := List.foldl_append

theorem blockAt_foldl : ((calls.foldl Call.apply b).blockAt l).location = (b.blockAt l).location ∧
    ((calls.foldl Call.apply b).blockAt l).instances = (b.blockAt l).instances ++ calls.flatMap (Call.instances l) ∧
    ((calls.foldl Call.apply b).blockAt l).operandPorts = (b.blockAt l).operandPorts ++ calls.flatMap (Call.operandPorts l) := by
  induction calls generalizing b with
  | nil => exact ⟨rfl, (List.append_nil _).symm, (List.append_nil _).symm⟩
  | cons c calls ih =>
    obtain ⟨hlocation, hinstances, hports⟩ := blockAt_apply (b := b) (c := c) (l := l)
    obtain ⟨hlocation', hinstances', hports'⟩ := ih (b := c.apply b)
    refine ⟨hlocation'.trans hlocation, ?_, ?_⟩
    · rw [List.foldl_cons, hinstances', hinstances, List.append_assoc, List.flatMap_cons]
    · rw [List.foldl_cons, hports', hports, List.append_assoc, List.flatMap_cons]

theorem ties_foldl : (calls.foldl Call.apply b).ties = b.ties ++ b.tiesFrom calls := by
  induction calls generalizing b with
  | nil => exact (List.append_nil _).symm
  | cons c calls ih => rw [List.foldl_cons, ih, ties_apply, List.append_assoc, tiesFrom]

theorem location_run : ((run calls).blockAt l).location = l := blockAt_foldl.1

theorem instances_run : ((run calls).blockAt l).instances = calls.flatMap (Call.instances l) := blockAt_foldl.2.1

theorem operandPorts_run : ((run calls).blockAt l).operandPorts = calls.flatMap (Call.operandPorts l) := blockAt_foldl.2.2

theorem ties_run_append : (run (before ++ c :: after)).ties =
    (run before).ties ++ (c.ties (run before) ++ tiesFrom (c.apply (run before)) after) := by
  rw [run_append, ties_foldl, tiesFrom]

/-- The ties of a declaration are there. -/
theorem feedOf_mem_tiesFrom (hunit : .functionalUnit location unit ops inputs ∈ calls) (hinput : input ∈ inputs) :
    feedOf location unit input ∈ b.tiesFrom calls := by
  induction calls generalizing b with
  | nil => cases hunit
  | cons c calls ih =>
    rcases List.mem_cons.mp hunit with rfl | hunit
    · exact List.mem_append_left _ (List.mem_map_of_mem hinput)
    · exact List.mem_append_right _ (ih hunit)

/-- The functional units are those declared. -/
theorem mem_instances_run_iff (hi : i.kind = .functionalUnit) : i ∈ ((run calls).blockAt l).instances ↔
    ∃ ops, .functionalUnit l i.name ops i.inputPorts ∈ calls ∧ i = unitOf i.name ops i.inputPorts := by
  rw [instances_run, List.mem_flatMap]
  constructor
  · rintro ⟨c, hc, hmem⟩
    cases c with
    | functionalUnit location name ops inputs =>
      dsimp only [Call.instances] at hmem
      split at hmem
      · next heq =>
        obtain rfl := List.mem_singleton.mp hmem
        exact ⟨ops, heq ▸ hc, rfl⟩
      · cases hmem
    | register location name =>
      dsimp only [Call.instances] at hmem
      split at hmem
      · obtain rfl := List.mem_singleton.mp hmem
        cases hi
      · cases hmem
    | mux => cases hmem
    | connect => cases hmem
  · rintro ⟨ops, hc, heq⟩
    refine ⟨_, hc, ?_⟩
    rw [Call.instances, if_pos rfl, ← heq]
    exact List.mem_singleton_self i

/-- A connection is redirected exactly if a unit with the input was declared before. -/
theorem isUnitInput_run_iff : (run calls).isUnitInput a = true ↔
    ∃ ops inputs, .functionalUnit a.location a.element ops inputs ∈ calls ∧ a.port ∈ inputs := by
  have hinstances : (((run calls).blocks.get? a.location).map (·.instances)).getD [] = ((run calls).blockAt a.location).instances := by
    unfold blockAt
    cases (run calls).blocks.get? a.location <;> rfl
  unfold isUnitInput
  rw [hinstances, List.any_eq_true]
  simp only [decide_eq_true_eq]
  constructor
  · rintro ⟨i, hi, hname, hkind, hport⟩
    obtain ⟨ops, hc, -⟩ := (mem_instances_run_iff hkind).mp hi
    exact ⟨ops, i.inputPorts, hname ▸ hc, hport⟩
  · rintro ⟨ops, inputs, hc, hport⟩
    exact ⟨unitOf a.element ops inputs, (mem_instances_run_iff rfl).mpr ⟨ops, hc, rfl⟩, rfl, rfl, hport⟩

/-! ## The fabric of a builder -/

theorem build_eq_ok_iff : b.build = .ok f ↔ b.fabric.validate = .ok () ∧ f = b.fabric := by
  unfold build
  cases b.fabric.validate with
  | error err => exact iff_of_false nofun fun h => nomatch h.1
  | ok => exact ⟨fun h => ⟨rfl, (Except.ok.inj h).symm⟩, fun h => congrArg Except.ok h.2.symm⟩

/-- The blocks of the fabric are those at locations where something was added. -/
theorem mem_blocks_iff {block : Block} : block ∈ b.fabric.blocks ↔ ∃ l, b.blocks.get? l = some block := by
  show block ∈ b.blocks.values ↔ _
  simp only [SortedMap.values, List.mem_map, SortedMap.get?_eq_some_iff, Prod.exists, exists_eq_right]

/-- A block is in the fabric, or it is empty. -/
theorem blockAt_mem_or_empty : b.blockAt l ∈ b.fabric.blocks ∨ b.blockAt l = .empty l := by
  unfold blockAt
  cases hl : b.blocks.get? l with
  | none => exact Or.inr rfl
  | some block => exact Or.inl (mem_blocks_iff.mpr ⟨l, hl⟩)

/-- Addresses name the elements of the block at their location. -/
theorem names_run_iff : (run calls).fabric.Names a e ↔ e ∈ ((run calls).blockAt a.location).elements ∧ e.name = a.element := by
  unfold Fabric.Names
  constructor
  · rintro ⟨block, hblock, hlocation, he⟩
    obtain ⟨l, hl⟩ := mem_blocks_iff.mp hblock
    have hat : (run calls).blockAt l = block := by rw [blockAt, hl, Option.getD_some]
    obtain rfl : l = a.location := location_run.symm.trans (hat ▸ hlocation)
    exact hat ▸ he
  · rintro ⟨he, hname⟩
    rcases blockAt_mem_or_empty (b := run calls) (l := a.location) with hmem | hempty
    · exact ⟨_, hmem, location_run, he, hname⟩
    · rw [hempty] at he
      cases he

section
variable (hbuild : (run calls).build = .ok f)
include hbuild

theorem validate_of_build : f.validate = .ok () := by
  obtain ⟨hvalid, rfl⟩ := build_eq_ok_iff.mp hbuild
  exact hvalid

theorem resolve_iff_of_build : f.resolve a = some e ↔ e ∈ ((run calls).blockAt a.location).elements ∧ e.name = a.element := by
  have hf := Fabric.wellFormed_of_validate (validate_of_build hbuild)
  obtain ⟨-, rfl⟩ := build_eq_ok_iff.mp hbuild
  rw [Fabric.resolve_eq_some_iff hf.locations hf.names, names_run_iff]

/-- A declared unit is found by its name. -/
theorem resolve_unit (hunit : .functionalUnit location unit ops inputs ∈ calls) (port : String) :
    f.resolve ⟨location, unit, port⟩ = some (.ofInstance (unitOf unit ops inputs)) := by
  have hmem : unitOf unit ops inputs ∈ ((run calls).blockAt location).instances := (mem_instances_run_iff rfl).mpr ⟨ops, hunit, rfl⟩
  exact (resolve_iff_of_build hbuild).mpr ⟨by simp [Block.elements, hmem], rfl⟩

/-- So is the operand port of each of its inputs. -/
theorem resolve_operandPort (hunit : .functionalUnit location unit ops inputs ∈ calls) (hinput : inputs[j]? = some input)
    (port : String) : f.resolve ⟨location, operandPortName unit input, port⟩ = some (.ofOperandPort (portOf unit input j)) := by
  have hmem : portOf unit input j ∈ ((run calls).blockAt location).operandPorts := by
    rw [operandPorts_run]
    refine List.mem_flatMap.mpr ⟨_, hunit, ?_⟩
    rw [Call.operandPorts, if_pos rfl]
    exact List.mem_map.mpr ⟨(input, j), List.mem_zipIdx_iff_getElem?.mpr hinput, rfl⟩
  exact (resolve_iff_of_build hbuild).mpr ⟨by simp [Block.elements, hmem], rfl⟩

/-- The operand port of an input is tied to the input. -/
theorem feedOf_mem_ties (hunit : .functionalUnit location unit ops inputs ∈ calls) (hinput : input ∈ inputs) :
    feedOf location unit input ∈ f.ties := by
  obtain ⟨-, rfl⟩ := build_eq_ok_iff.mp hbuild
  show _ ∈ (run calls).ties
  rw [run, ties_foldl]
  exact List.mem_append_right _ (feedOf_mem_tiesFrom hunit hinput)

/-! ## Connections -/

/-- No unit with the input is declared after a connection to it. -/
theorem not_mem_of_early (hcalls : calls = before ++ .connect src dst :: after) (hnot : (run before).isUnitInput dst = false)
    (hport : dst.port ∈ inputs) : .functionalUnit dst.location dst.element ops inputs ∉ after := by
  intro hunit
  have hf := Fabric.wellFormed_of_validate (validate_of_build hbuild)
  obtain ⟨-, rfl⟩ := build_eq_ok_iff.mp hbuild
  subst hcalls
  have hdrivers : ((run (before ++ .connect src dst :: after)).ties.map (·.dst)).Nodup := hf.drivers
  rw [ties_run_append, Call.ties, redirect, hnot, if_neg nofun, List.map_append, List.singleton_append, List.map_cons] at hdrivers
  -- The tie of the connection and that of the declaration lead to one input.
  exact (List.nodup_cons.mp (List.nodup_append.mp hdrivers).2.1).1
    (List.mem_map.mpr ⟨_, feedOf_mem_tiesFrom hunit hport, rfl⟩)

/-- No unit is declared twice. -/
theorem not_mem_of_declared {ops' inputs' : List String} (hcalls : calls = before ++ after)
    (hunit : .functionalUnit location unit ops inputs ∈ before) : .functionalUnit location unit ops' inputs' ∉ after := by
  intro hunit'
  have hf := Fabric.wellFormed_of_validate (validate_of_build hbuild)
  obtain ⟨-, rfl⟩ := build_eq_ok_iff.mp hbuild
  have hnames : (((run calls).blockAt location).instances.map (·.name)).Nodup := by
    rcases blockAt_mem_or_empty (b := run calls) (l := location) with hmem | hempty
    · have hnodup := hf.names _ hmem
      rw [Block.elements, List.append_assoc, List.map_append, List.map_map] at hnodup
      exact (List.nodup_append.mp hnodup).1
    · rw [hempty]
      exact List.nodup_nil
  rw [instances_run, hcalls, List.flatMap_append, List.map_append] at hnames
  have hmem {calls : List Call} {ops inputs : List String} (h : .functionalUnit location unit ops inputs ∈ calls) :
      unit ∈ (calls.flatMap (Call.instances location)).map (·.name) := by
    have hinstance := (mem_instances_run_iff (i := unitOf unit ops inputs) (l := location) rfl).mpr ⟨ops, h, rfl⟩
    rw [instances_run] at hinstance
    exact List.mem_map.mpr ⟨_, hinstance, rfl⟩
  exact (List.nodup_append.mp hnames).2.2 _ (hmem hunit) _ (hmem hunit') rfl

/-- A connection to an input of a unit comes after the unit's declaration, so it is redirected. -/
theorem isUnitInput_of_connect (hcalls : calls = before ++ .connect src ⟨location, unit, input⟩ :: after)
    (hunit : .functionalUnit location unit ops inputs ∈ calls) (hinput : input ∈ inputs) :
    (run before).isUnitInput ⟨location, unit, input⟩ = true := by
  rw [hcalls, List.mem_append, List.mem_cons] at hunit
  rcases hunit with hunit | hunit | hunit
  · exact isUnitInput_run_iff.mpr ⟨ops, inputs, hunit, hinput⟩
  · cases hunit
  · by_contra hnot
    exact not_mem_of_early hbuild hcalls (Bool.eq_false_iff.mpr hnot) hinput hunit

theorem mem_ties_of_append (hcalls : calls = before ++ .connect src dst :: after) : ⟨src, (run before).redirect dst⟩ ∈ f.ties := by
  obtain ⟨-, rfl⟩ := build_eq_ok_iff.mp hbuild
  subst hcalls
  show _ ∈ (run _).ties
  rw [ties_run_append]
  exact List.mem_append_right _ List.mem_cons_self

/-- A connection to an input of a unit ends at the operand port of the input. -/
theorem mem_ties_of_connect (hunit : .functionalUnit location unit ops inputs ∈ calls) (hinput : input ∈ inputs)
    (hconnect : .connect src ⟨location, unit, input⟩ ∈ calls) : ⟨src, ⟨location, operandPortName unit input, "in"⟩⟩ ∈ f.ties := by
  obtain ⟨before, after, hcalls⟩ := List.append_of_mem hconnect
  have hmem := mem_ties_of_append hbuild hcalls
  rwa [redirect, if_pos (isUnitInput_of_connect hbuild hcalls hunit hinput)] at hmem

/-- No connection ends at a unit. -/
theorem kind_ne_of_connect (hcalls : calls = before ++ .connect src dst :: after)
    (hi : f.resolve ((run before).redirect dst) = some (.ofInstance i)) : i.kind ≠ .functionalUnit := by
  intro hkind
  have hf := Fabric.wellFormed_of_validate (validate_of_build hbuild)
  obtain ⟨target, htarget, hport⟩ := (hf.fits _ (mem_ties_of_append hbuild hcalls)).target
  obtain rfl : target = .ofInstance i := Option.some.inj (htarget.symm.trans hi)
  obtain ⟨hmem, hname⟩ := (resolve_iff_of_build hbuild).mp hi
  obtain ⟨ops, hunit, -⟩ := (mem_instances_run_iff hkind).mp (by simpa [Block.elements] using hmem)
  cases hinput : (run before).isUnitInput dst with
  | true =>
    -- The operand port has the name alone.
    obtain ⟨ops', inputs', hunit', hport'⟩ := isUnitInput_run_iff.mp hinput
    obtain ⟨j, hj⟩ := List.getElem?_of_mem hport'
    rw [redirect, if_pos hinput, resolve_operandPort hbuild (hcalls ▸ List.mem_append_left _ hunit') hj] at hi
    cases hi
  | false =>
    rw [redirect, hinput, if_neg nofun] at hunit hname hport
    change i.name = dst.element at hname
    rw [hname, hcalls, List.mem_append, List.mem_cons] at hunit
    rcases hunit with hunit | hunit | hunit
    · exact absurd (isUnitInput_run_iff.mpr ⟨ops, i.inputPorts, hunit, hport⟩) (Bool.eq_false_iff.mp hinput)
    · cases hunit
    · exact not_mem_of_early hbuild hcalls hinput hport hunit

end

/-- A connection to an input of a unit that is declared later makes building fail. -/
theorem build_eq_error_of_early (hcalls : calls = before ++ .connect src ⟨location, unit, input⟩ :: after)
    (hunit : .functionalUnit location unit ops inputs ∈ after) (hinput : input ∈ inputs) : ∃ err, (run calls).build = .error err := by
  cases hbuild : (run calls).build with
  | error err => exact ⟨err, rfl⟩
  | ok f =>
    have hdeclared := isUnitInput_of_connect hbuild hcalls (hcalls ▸ List.mem_append_right _ (List.mem_cons_of_mem _ hunit)) hinput
    obtain ⟨ops', inputs', hunit', -⟩ := isUnitInput_run_iff.mp hdeclared
    exact absurd (List.mem_cons_of_mem _ hunit) (not_mem_of_declared hbuild hcalls hunit')

end FabricBuilder
end PlaceRoute
