import PlaceRoute.Fabric.Basic

/-!
# Validation of fabrics

`Fabric.validate` refuses a fabric at its first fault: repeated locations and names, ports of both directions, ties
that lead from or to nowhere, inputs with two drivers, and unit inputs that are not fed by operand ports of different
operands. Inputs without a driver are fine.
-/

namespace PlaceRoute
namespace Fabric

/-- The first fault of a fabric. -/
inductive Error where
  | duplicateLocation (location : Location)
  | duplicateName (location : Location) (name : String)
  | portOverlap (location : Location) (name port : String)
  | unknownElement (address : Address)
  | badPort (address : Address)
  | multipleDrivers (address : Address)
  | unitInputNotFromOperandPort (address : Address)
  | duplicateOperand (address : Address) (operand : Nat)
  deriving DecidableEq, Repr

/-- The text of a fault. -/
def Error.message : Error → String
  | duplicateLocation location => s!"duplicate block at {location}"
  | duplicateName location name => s!"duplicate element '{name}' in block at {location}"
  | portOverlap location name port => s!"element '{name}' at {location} has port '{port}' as both input and output"
  | unknownElement address => s!"tie references unknown element {address}"
  | badPort address => s!"tie references {address}, which is not a port of the expected direction"
  | multipleDrivers address => s!"input {address} has more than one driver"
  | unitInputNotFromOperandPort address => s!"functional-unit input {address} must be driven by an operand port"
  | duplicateOperand address operand => s!"operand {operand} of unit at {address} is bound twice"

/-- Checks that the names are new and that no element uses one port in both directions. -/
def checkElements (location : Location) : List String → List Element → Except Error Unit
  | _, [] => .ok ()
  | seen, e :: elements =>
    if e.name ∈ seen then .error (.duplicateName location e.name)
    else match e.outputPorts.find? (· ∈ e.inputPorts) with
      | some port => .error (.portOverlap location e.name port)
      | none => checkElements location (e.name :: seen) elements

/-- Checks that the locations are new, and the elements of each block. -/
def checkBlocks : List Location → List Block → Except Error Unit
  | _, [] => .ok ()
  | seen, b :: blocks =>
    if b.location ∈ seen then .error (.duplicateLocation b.location)
    else do
      checkElements b.location [] b.elements
      checkBlocks (b.location :: seen) blocks

/-- What the ties read so far have used up. -/
structure Taken where
  /-- The inputs that have a driver. -/
  inputs : List Address
  /-- The operands that are bound, with the location and name of their unit. -/
  operands : List (Location × String × Nat)

/-- Checks one tie against the fabric and the ties before it. -/
def checkTie (f : Fabric) (taken : Taken) (tie : Tie) : Except Error Taken := do
  let some src := f.resolve tie.src | throw (.unknownElement tie.src)
  if tie.src.port ∉ src.outputPorts then throw (.badPort tie.src)
  let some dst := f.resolve tie.dst | throw (.unknownElement tie.dst)
  if tie.dst.port ∉ dst.inputPorts then throw (.badPort tie.dst)
  if tie.dst ∈ taken.inputs then throw (.multipleDrivers tie.dst)
  let taken := { taken with inputs := tie.dst :: taken.inputs }
  match dst with
  | .ofInstance i =>
    if i.kind = .functionalUnit then
      match src with
      | .ofOperandPort p =>
        let binding := (tie.dst.location, i.name, p.operand)
        if binding ∈ taken.operands then throw (.duplicateOperand tie.dst p.operand)
        pure { taken with operands := binding :: taken.operands }
      | _ => throw (.unitInputNotFromOperandPort tie.dst)
    else pure taken
  | _ => pure taken

/-- Checks that a fabric is well formed. -/
def validate (f : Fabric) : Except Error Unit := do
  checkBlocks [] f.blocks
  let _ ← f.ties.foldlM (checkTie f) ⟨[], []⟩

end Fabric
end PlaceRoute
