import PlaceRoute.Proofs.Fabric.Builder
import PlaceRoute.Proofs.Graph.Feeds

/-!
# Units of built fabrics bind their inputs

Whatever the calls of a builder, in every graph of the fabric a copy of a unit binds the operand ports that its declaration brought, one
for each input, and these alone drive it (`Graph.bindsInputs_of_build`). Connections end at the operand ports
(`Graph.exists_edge_of_connect`), so nothing that the caller ties reaches a unit past them (`FabricBuilder.binds_operands`).
-/

namespace PlaceRoute

open FabricBuilder (Call run unitOf portOf feedOf)

/-- A node binds the operand ports for the inputs of a unit in its context, in their order, and these alone drive it, each at its
input. -/
structure Node.BindsInputs (n : Node) (g : Graph) (location : Location) (unit : String) (inputs : List String) : Prop where
  bound : ∀ j, (n.operandPort? j).isSome = true ↔ j < inputs.length
  port : ∀ {j : Nat} {input : String}, inputs[j]? = some input → ∃ p q, n.operandPort? j = some p ∧ g.node? p = some q ∧
    q.IsCopy ⟨n.context, location, .ofOperandPort (portOf unit input j)⟩
  edges : ∀ {x : Edge}, x ∈ g.edges ∧ x.dst = n.id ↔
    ∃ j input p, inputs[j]? = some input ∧ n.operandPort? j = some p ∧ x = ⟨p, "out", n.id, input⟩

/-- What some calls of a builder become in a graph of their fabric. -/
structure Graph.Realizes (g : Graph) (f : Fabric) (options : GraphOptions) (calls : List Call) : Prop where
  /-- Every unit has a copy in each context. -/
  units : ∀ {location : Location} {unit : String} {ops inputs : List String} {context : Nat},
    .functionalUnit location unit ops inputs ∈ calls → context < options.contexts →
    ∃ u n, g.node? u = some n ∧ n.IsCopy ⟨context, location, .ofInstance (unitOf unit ops inputs)⟩
  /-- Every copy of a unit binds the unit's inputs. -/
  binds : ∀ {location : Location} {unit : String} {ops inputs : List String} {context : Nat} {u : NodeId} {n : Node},
    .functionalUnit location unit ops inputs ∈ calls → g.node? u = some n →
    n.IsCopy ⟨context, location, .ofInstance (unitOf unit ops inputs)⟩ → n.BindsInputs g location unit inputs
  /-- A connection to an input of a unit is an edge to a copy of the input's operand port in every context, unless it comes from a
  register that was taken out. -/
  connects : ∀ {src : Address} {location : Location} {unit input : String} {ops inputs : List String} {j : Nat},
    .functionalUnit location unit ops inputs ∈ calls → inputs[j]? = some input → .connect src ⟨location, unit, input⟩ ∈ calls →
    ∃ source, f.resolve src = some source ∧ (¬(options.contexts = 1 ∧ options.registers = .elide) ∨ source.isRegister = false →
      ∀ context < options.contexts, ∃ x ∈ g.edges,
        (∃ s, g.node? x.src = some s ∧ s.IsCopy ⟨context, src.location, source⟩) ∧ x.srcPort = src.port ∧
        (∃ t, g.node? x.dst = some t ∧ t.IsCopy ⟨if source.isRegister then (context + 1) % options.contexts else context, location,
          .ofOperandPort (portOf unit input j)⟩) ∧ x.dstPort = "in")
  /-- No connection is a tie to a unit. -/
  detours : ∀ {before after : List Call} {src dst : Address}, calls = before ++ .connect src dst :: after →
    ⟨src, (run before).redirect dst⟩ ∈ f.ties ∧
    ∀ i, f.resolve ((run before).redirect dst) = some (.ofInstance i) → i.kind ≠ .functionalUnit

variable {f : Fabric} {options : GraphOptions} {g : Graph} {calls : List Call} {location : Location} {src : Address}
  {unit input : String} {ops inputs : List String} {context j : Nat} {u p : NodeId} {n : Node} {x : Edge} {tie : Tie}

/-- The ties to a unit are those of its declaration. -/
theorem FabricBuilder.mem_ties_to_unit_iff (hbuild : (run calls).build = .ok f)
    (hunit : .functionalUnit location unit ops inputs ∈ calls) : tie ∈ f.ties ∧ tie.dst.location = location ∧ tie.dst.element = unit ↔
    ∃ input ∈ inputs, tie = feedOf location unit input := by
  have hf := Fabric.wellFormed_of_validate (validate_of_build hbuild)
  constructor
  · rintro ⟨htie, rfl, rfl⟩
    obtain ⟨e, he, hport⟩ := (hf.fits tie htie).target
    obtain rfl : .ofInstance (unitOf tie.dst.element ops inputs) = e :=
      Option.some.inj ((resolve_unit hbuild hunit tie.dst.port).symm.trans he)
    exact ⟨tie.dst.port, hport, List.inj_on_of_nodup_map hf.drivers htie (feedOf_mem_ties hbuild hunit hport) rfl⟩
  · rintro ⟨input, hinput, rfl⟩
    exact ⟨feedOf_mem_ties hbuild hunit hinput, rfl, rfl⟩

namespace Graph

section
variable (hbuild : (run calls).build = .ok f) (hg : build f options = .ok g)
  (hunit : .functionalUnit location unit ops inputs ∈ calls)
include hbuild hg hunit

section
variable (hu : g.node? u = some n) (hcopy : n.IsCopy ⟨context, location, .ofInstance (unitOf unit ops inputs)⟩)
include hu hcopy

/-- The edges into a copy of a unit come from the operand ports of its inputs. -/
theorem mem_edges_declared_iff : x ∈ g.edges ∧ x.dst = u ↔ ∃ j input q, inputs[j]? = some input ∧ g.node? x.src = some q ∧
    q.IsCopy ⟨context, location, .ofOperandPort (portOf unit input j)⟩ ∧ x.srcPort = "out" ∧ x.dst = u ∧ x.dstPort = input := by
  rw [mem_edges_unit_iff (FabricBuilder.validate_of_build hbuild) hg (FabricBuilder.resolve_unit hbuild hunit "out") rfl hu hcopy]
  constructor
  · rintro ⟨tie, htie, hlocation, helement, ⟨p, q, hp, hq, hqcopy⟩, hsrcPort, hdst, hdstPort⟩
    obtain ⟨input, hinput, rfl⟩ := (FabricBuilder.mem_ties_to_unit_iff hbuild hunit).mp ⟨htie, hlocation, helement⟩
    obtain ⟨j, hj⟩ := List.getElem?_of_mem hinput
    obtain rfl : portOf unit input j = p :=
      Element.ofOperandPort.inj (Option.some.inj ((FabricBuilder.resolve_operandPort hbuild hunit hj "out").symm.trans hp))
    exact ⟨j, input, q, hj, hq, hqcopy, hsrcPort, hdst, hdstPort⟩
  · rintro ⟨j, input, q, hj, hq, hqcopy, hsrcPort, hdst, hdstPort⟩
    exact ⟨feedOf location unit input, FabricBuilder.feedOf_mem_ties hbuild hunit (List.mem_of_getElem? hj), rfl, rfl,
      ⟨_, q, FabricBuilder.resolve_operandPort hbuild hunit hj "out", hq, hqcopy⟩, hsrcPort, hdst, hdstPort⟩

/-- Which node a copy of a unit binds at an operand. -/
theorem operandPort?_eq_some_iff : n.operandPort? j = some p ↔ ∃ input q, inputs[j]? = some input ∧ g.node? p = some q ∧
    q.IsCopy ⟨context, location, .ofOperandPort (portOf unit input j)⟩ := by
  have hconsistent := (consistent_build hg).1
  have hedges {x : Edge} : g.Receives x ↔ x ∈ g.edges := hconsistent.sends_iff.symm.trans hconsistent.mem_edges.symm
  have hisUnit : n.isUnit = true := by
    obtain ⟨operands, hkind⟩ := hcopy.kind.exists_eq_unit rfl
    rw [Node.isUnit, hkind]
  rw [hconsistent.bound_iff hu hisUnit, mem_fanin_iff]
  constructor
  · rintro ⟨⟨x, hx, rfl, hdst⟩, q, hq, hkind⟩
    obtain ⟨i, input, q', hi, hq', hqcopy, -⟩ := (mem_edges_declared_iff hbuild hg hunit hu hcopy).mp ⟨hedges.mp hx, hdst⟩
    obtain rfl : q = q' := Option.some.inj (hq.symm.trans hq')
    obtain rfl : j = i := NodeKind.operandPort.inj (hkind.symm.trans hqcopy.kind.eq_operandPort)
    exact ⟨input, q, hi, hq, hqcopy⟩
  · rintro ⟨input, q, hj, hq, hqcopy⟩
    obtain ⟨hx, hdst⟩ := (mem_edges_declared_iff (x := ⟨p, "out", u, input⟩) hbuild hg hunit hu hcopy).mpr
      ⟨j, input, q, hj, hq, hqcopy, rfl, rfl, rfl⟩
    exact ⟨⟨_, hedges.mpr hx, rfl, hdst⟩, q, hq, hqcopy.kind.eq_operandPort⟩

/-- A copy of a unit binds the unit's inputs. -/
theorem bindsInputs_of_build : n.BindsInputs g location unit inputs := by
  have hcontext : n.context = context := hcopy.context
  have hport {j : Nat} {input : String} (hj : inputs[j]? = some input) : ∃ p q, n.operandPort? j = some p ∧ g.node? p = some q ∧
      q.IsCopy ⟨context, location, .ofOperandPort (portOf unit input j)⟩ := by
    have hlt : context < options.contexts := context_lt_of_copy (FabricBuilder.validate_of_build hbuild) hg hu hcopy
    obtain ⟨p, q, hq, hqcopy⟩ := exists_copy_of_build (FabricBuilder.validate_of_build hbuild) hg hlt
      (FabricBuilder.resolve_operandPort hbuild hunit hj "in") (Or.inr rfl)
    exact ⟨p, q, (operandPort?_eq_some_iff hbuild hg hunit hu hcopy).mpr ⟨input, q, hj, hq, hqcopy⟩, hq, hqcopy⟩
  refine ⟨fun j => ?_, fun hj => hcontext ▸ hport hj, fun {x} => ?_⟩
  · rw [Option.isSome_iff_exists]
    constructor
    · rintro ⟨p, hp⟩
      obtain ⟨input, -, hj, -⟩ := (operandPort?_eq_some_iff hbuild hg hunit hu hcopy).mp hp
      exact (List.getElem?_eq_some_iff.mp hj).1
    · intro hlt
      obtain ⟨p, -, hp, -⟩ := hport (List.getElem?_eq_getElem hlt)
      exact ⟨p, hp⟩
  · rw [(consistent_build hg).1.id hu, mem_edges_declared_iff hbuild hg hunit hu hcopy]
    constructor
    · rintro ⟨j, input, q, hj, hq, hqcopy, hsrcPort, hdst, hdstPort⟩
      refine ⟨j, input, x.src, hj, (operandPort?_eq_some_iff hbuild hg hunit hu hcopy).mpr ⟨input, q, hj, hq, hqcopy⟩, ?_⟩
      rw [← hsrcPort, ← hdst, ← hdstPort]
    · rintro ⟨j, input, p, hj, hp, rfl⟩
      obtain ⟨input', q, hj', hq, hqcopy⟩ := (operandPort?_eq_some_iff hbuild hg hunit hu hcopy).mp hp
      exact ⟨j, input', q, hj', hq, hqcopy, rfl, rfl, Option.some.inj (hj.symm.trans hj')⟩

end

/-- A connection to an input of a unit is an edge to the input's operand port in every context. -/
theorem exists_edge_of_connect (hj : inputs[j]? = some input) (hconnect : .connect src ⟨location, unit, input⟩ ∈ calls) :
    ∃ source, f.resolve src = some source ∧ (¬(options.contexts = 1 ∧ options.registers = .elide) ∨ source.isRegister = false →
      ∀ context < options.contexts, ∃ x ∈ g.edges,
        (∃ s, g.node? x.src = some s ∧ s.IsCopy ⟨context, src.location, source⟩) ∧ x.srcPort = src.port ∧
        (∃ t, g.node? x.dst = some t ∧ t.IsCopy ⟨if source.isRegister then (context + 1) % options.contexts else context, location,
          .ofOperandPort (portOf unit input j)⟩) ∧ x.dstPort = "in") := by
  have hvalid := FabricBuilder.validate_of_build hbuild
  have htie := FabricBuilder.mem_ties_of_connect hbuild hunit (List.mem_of_getElem? hj) hconnect
  obtain ⟨source, hsource, -⟩ := ((Fabric.wellFormed_of_validate hvalid).fits _ htie).source
  refine ⟨source, hsource, fun hkept context hcontext => ?_⟩
  have harrival : f.arrival options.contexts context ⟨src, ⟨location, FabricBuilder.operandPortName unit input, "in"⟩⟩ =
      if source.isRegister then (context + 1) % options.contexts else context := by
    rw [Fabric.arrival, hsource, Option.any_some]
  have hmux : ∀ m, Element.ofOperandPort (portOf unit input j) ≠ .ofMux m := by
    rintro m hm
    cases hm
  rw [← harrival]
  exact exists_edge_of_tie hvalid hg (hkept.imp_right fun hsrc => ⟨hsrc, rfl⟩) htie hcontext hsource
    (FabricBuilder.resolve_operandPort hbuild hunit hj "in") hmux

end

end Graph

namespace FabricBuilder

/-- **Operands of built fabrics.** Whatever the calls of a builder, if they give a fabric then in every graph of it each copy of a unit
binds exactly the operand ports of the unit's inputs, connections to these inputs are edges to the operand ports in every context, and no
connection reaches the unit itself. The calls give no fabric if an input of a unit is connected before the unit is declared. -/
theorem binds_operands (calls : List Call) :
    (∀ f options g, (run calls).build = .ok f → Graph.build f options = .ok g → g.Realizes f options calls) ∧
    ∀ before after src location unit input ops inputs, calls = before ++ .connect src ⟨location, unit, input⟩ :: after →
      .functionalUnit location unit ops inputs ∈ after → input ∈ inputs → ∃ err, (run calls).build = .error err := by
  refine ⟨fun f options g hbuild hg => ?_, fun before after src location unit input ops inputs => build_eq_error_of_early⟩
  exact
    { units := fun hunit hcontext => Graph.exists_copy_of_build (validate_of_build hbuild) hg hcontext
        (resolve_unit hbuild hunit "out") (Or.inr rfl)
      binds := fun hunit hu hcopy => Graph.bindsInputs_of_build hbuild hg hunit hu hcopy
      connects := fun hunit hj hconnect => Graph.exists_edge_of_connect hbuild hg hunit hj hconnect
      detours := fun hcalls => ⟨mem_ties_of_append hbuild hcalls, fun i hi => kind_ne_of_connect hbuild hcalls hi⟩ }

/-- A unit whose result comes back to its first input over a register. -/
def accumulator : List Call := [
  .functionalUnit ⟨0, 0⟩ "alu" ["add"] ["a", "b"],
  .register ⟨0, 1⟩ "acc",
  .connect ⟨⟨0, 0⟩, "alu", "out"⟩ ⟨⟨0, 1⟩, "acc", "in"⟩,
  .connect ⟨⟨0, 1⟩, "acc", "out"⟩ ⟨⟨0, 0⟩, "alu", "a"⟩]

/-- In two contexts its copies bind both inputs, and the register drives the operand port of the first, in the next context. When the
calls come in the other order there is no fabric. -/
theorem accumulator_binds : ∃ f g, (run accumulator).build = .ok f ∧ Graph.build f { contexts := 2 } = .ok g ∧
    (∃ u n, g.node? u = some n ∧ n.name = "FunctionalUnit_alu_1_0_0" ∧ n.BindsInputs g ⟨0, 0⟩ "alu" ["a", "b"]) ∧
    (∃ x ∈ g.edges, (∃ s, g.node? x.src = some s ∧ s.name = "Register_acc_1_0_1") ∧
      ∃ t, g.node? x.dst = some t ∧ t.name = "Port_PORT-alu-a_0_0_0") ∧
    ∃ err, (run accumulator.reverse).build = .error err := by
  have hbuild : (run accumulator).build = .ok (run accumulator).fabric := eq_ok_of_toOption (by decide)
  obtain ⟨g, hg, -⟩ := exists_ok_of_any (x := Graph.build (run accumulator).fabric { contexts := 2 }) (p := fun _ => true) (by decide)
  have hunit : Call.functionalUnit ⟨0, 0⟩ "alu" ["add"] ["a", "b"] ∈ accumulator := List.mem_cons_self
  have hconnect : Call.connect ⟨⟨0, 1⟩, "acc", "out"⟩ ⟨⟨0, 0⟩, "alu", "a"⟩ ∈ accumulator := by simp [accumulator]
  have hrealizes := (binds_operands accumulator).1 _ _ g hbuild hg
  refine ⟨_, g, hbuild, hg, ?_, ?_, ?_⟩
  · obtain ⟨u, n, hu, hcopy⟩ := hrealizes.units hunit (by decide : 1 < 2)
    exact ⟨u, n, hu, hcopy.name, hrealizes.binds hunit hu hcopy⟩
  · obtain ⟨source, hsource, hedges⟩ := hrealizes.connects (j := 0) hunit rfl hconnect
    obtain rfl : .ofInstance ⟨"acc", .register, ["in"], ["out"], ∅⟩ = source := Option.some.inj hsource
    obtain ⟨x, hx, ⟨s, hs, hscopy⟩, -, ⟨t, ht, htcopy⟩, -⟩ := hedges (Or.inl nofun) 1 (by decide)
    exact ⟨x, hx, ⟨s, hs, hscopy.name⟩, t, ht, htcopy.name⟩
  · exact (binds_operands accumulator.reverse).2 [] _ _ ⟨0, 0⟩ "alu" "a" ["add"] ["a", "b"] rfl (by simp) (by simp)

end FabricBuilder
end PlaceRoute
