import PlaceRoute.Sorted.Set

/-!
# Fabrics

A `Fabric` describes reconfigurable hardware: blocks on a grid that hold functional units, registers, muxes and operand
ports, and ties from output ports to input ports. An `Element` is any part of a block, seen through its ports.
-/

namespace PlaceRoute

/-- A place on the grid. -/
structure Location where
  row : Nat
  col : Nat
  deriving DecidableEq, Repr, Inhabited

namespace Location

instance : Ord Location := ⟨compareLex (compareOn row) (compareOn col)⟩

instance : Std.TransOrd Location := inferInstanceAs (Std.TransCmp (compareLex (compareOn row) (compareOn col)))

instance : Std.LawfulEqOrd Location where
  eq_of_compare {a b} h := by
    obtain ⟨hr, hc⟩ := compareLex_eq_eq.mp h
    cases a; cases b
    cases Std.LawfulEqOrd.eq_of_compare (α := Nat) hr
    cases Std.LawfulEqOrd.eq_of_compare (α := Nat) hc
    rfl

instance : ToString Location := ⟨fun l => s!"({l.row}, {l.col})"⟩

end Location

/-- What a block instance does. -/
inductive InstanceKind where
  /-- Executes one of its opcodes. -/
  | functionalUnit
  /-- Delays by one context. -/
  | register
  deriving DecidableEq, Repr, Inhabited

/-- A functional unit or register of a block. -/
structure Instance where
  name : String
  kind : InstanceKind
  inputPorts : List String
  outputPorts : List String
  /-- The supported opcodes. -/
  ops : SortedSet String
  deriving DecidableEq, Inhabited

/-- A routing multiplexer: several inputs, one output, no storage. -/
structure Mux where
  name : String
  inputPorts : List String
  outputPort : String
  deriving DecidableEq, Repr, Inhabited

/-- A line dedicated to one operand of a functional unit. -/
structure OperandPort where
  name : String
  inputPort : String
  outputPort : String
  /-- The operand that it feeds. -/
  operand : Nat
  deriving DecidableEq, Repr, Inhabited

/-- The elements at one place of the grid. -/
structure Block where
  location : Location
  instances : List Instance
  muxes : List Mux
  operandPorts : List OperandPort
  deriving DecidableEq, Inhabited

/-- Any element of a block. -/
inductive Element where
  | ofInstance (i : Instance)
  | ofMux (m : Mux)
  | ofOperandPort (p : OperandPort)
  deriving DecidableEq, Inhabited

namespace Element

/-- The name of an element. -/
def name : Element → String
  | ofInstance i => i.name
  | ofMux m => m.name
  | ofOperandPort p => p.name

/-- The input ports of an element. -/
def inputPorts : Element → List String
  | ofInstance i => i.inputPorts
  | ofMux m => m.inputPorts
  | ofOperandPort p => [p.inputPort]

/-- The output ports of an element. -/
def outputPorts : Element → List String
  | ofInstance i => i.outputPorts
  | ofMux m => [m.outputPort]
  | ofOperandPort p => [p.outputPort]

end Element

namespace Block

/-- The block without elements. -/
def empty (location : Location) : Block := ⟨location, [], [], []⟩

/-- All elements: instances, then muxes, then operand ports. -/
def elements (b : Block) : List Element :=
  b.instances.map .ofInstance ++ b.muxes.map .ofMux ++ b.operandPorts.map .ofOperandPort

/-- The first element with a name. -/
def element? (b : Block) (name : String) : Option Element := b.elements.find? (·.name = name)

end Block

/-- A port of an element of a block. -/
structure Address where
  location : Location
  element : String
  port : String
  deriving DecidableEq, Repr, Inhabited

instance : ToString Address := ⟨fun a => s!"{a.location}.{a.element}.{a.port}"⟩

/-- A connection from an output port to an input port. -/
structure Tie where
  src : Address
  dst : Address
  deriving DecidableEq, Repr, Inhabited

/-- Blocks and the ties between them. -/
structure Fabric where
  blocks : List Block
  ties : List Tie
  deriving DecidableEq, Inhabited

namespace Fabric

/-- The first block at a location. -/
def block? (f : Fabric) (location : Location) : Option Block := f.blocks.find? (·.location = location)

/-- The element that an address names. -/
def resolve (f : Fabric) (a : Address) : Option Element := (f.block? a.location).bind (·.element? a.element)

/-- The number of instances of a kind. -/
def instanceCount (f : Fabric) (kind : InstanceKind) : Nat :=
  (f.blocks.flatMap (·.instances)).countP (·.kind = kind)

end Fabric
end PlaceRoute
