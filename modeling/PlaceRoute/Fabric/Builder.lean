import PlaceRoute.Fabric.Validation
import PlaceRoute.Sorted.Map

/-!
# Building fabrics

A `FabricBuilder` collects elements and ties. A functional unit brings one operand port for each of its inputs, and a
connection to a unit input that is declared already goes to the operand port of that input instead.
-/

namespace PlaceRoute

/-- A fabric in the making. -/
structure FabricBuilder where
  blocks : SortedMap Location Block
  ties : List Tie
  deriving DecidableEq, Inhabited

namespace FabricBuilder

/-- The name of the operand port for an input of a unit. -/
def operandPortName (unit port : String) : String := s!"PORT-{unit}-{port}"

/-- The builder without elements. -/
def new : FabricBuilder := ⟨∅, []⟩

/-- Changes the block at a location, which is empty at first. -/
def modifyBlock (b : FabricBuilder) (location : Location) (f : Block → Block) : FabricBuilder :=
  { b with blocks := b.blocks.alter location fun block => f (block.getD (.empty location)) }

/-- Adds a functional unit with output `out`; its inputs are bound to operands in order. -/
def functionalUnit (b : FabricBuilder) (location : Location) (name : String) (ops inputs : List String) :
    FabricBuilder :=
  let unit : Instance := ⟨name, .functionalUnit, inputs, ["out"], SortedSet.ofList ops⟩
  let ports := inputs.zipIdx.map fun (input, i) => (⟨operandPortName name input, "in", "out", i⟩ : OperandPort)
  let ties := inputs.map fun input =>
    (⟨⟨location, operandPortName name input, "out"⟩, ⟨location, name, input⟩⟩ : Tie)
  let b := b.modifyBlock location fun block =>
    { block with instances := block.instances ++ [unit], operandPorts := block.operandPorts ++ ports }
  { b with ties := b.ties ++ ties }

/-- Adds a register with ports `in` and `out`. -/
def register (b : FabricBuilder) (location : Location) (name : String) : FabricBuilder :=
  b.modifyBlock location fun block =>
    { block with instances := block.instances ++ [⟨name, .register, ["in"], ["out"], ∅⟩] }

/-- Adds a mux with numbered inputs `in0`, `in1` and so on, and output `out`. -/
def mux (b : FabricBuilder) (location : Location) (name : String) (inputs : Nat) : FabricBuilder :=
  b.modifyBlock location fun block =>
    { block with muxes := block.muxes ++ [⟨name, (List.range inputs).map (s!"in{·}"), "out"⟩] }

/-- Whether an address names an input of a functional unit declared so far. -/
def isUnitInput (b : FabricBuilder) (a : Address) : Bool :=
  ((b.blocks.get? a.location).map (·.instances)).getD [] |>.any fun i =>
    decide (i.name = a.element ∧ i.kind = .functionalUnit ∧ a.port ∈ i.inputPorts)

/-- Where a connection to an address ends. -/
def redirect (b : FabricBuilder) (dst : Address) : Address :=
  if b.isUnitInput dst then ⟨dst.location, operandPortName dst.element dst.port, "in"⟩ else dst

/-- Ties an output to an input. -/
def connect (b : FabricBuilder) (src dst : Address) : FabricBuilder :=
  { b with ties := b.ties ++ [⟨src, b.redirect dst⟩] }

/-- The fabric built so far, valid or not. -/
def fabric (b : FabricBuilder) : Fabric := ⟨b.blocks.values, b.ties⟩

/-- The finished fabric, if it is well formed. -/
def build (b : FabricBuilder) : Except Fabric.Error Fabric := do
  b.fabric.validate
  pure b.fabric

end FabricBuilder
end PlaceRoute
