import PlaceRoute.Fabric.Validation
import PlaceRoute.Json.Parser
import PlaceRoute.Json.Record

/-!
# Fabrics as JSON

The file format of fabrics: `Fabric.toJson` writes it, `Fabric.ofJson?` reads it and `Fabric.load` reads and validates
a text. The lists of a block, the opcodes of an instance and the ties of a fabric may be left out.
-/

namespace PlaceRoute

open Json (record? string? nat32? list? orDefault choice?)

/-- Reads a location. -/
def Location.ofJson? (j : Json) : Option Location := do
  let [some row, some col] ← record? ["row", "col"] j | none
  some ⟨← nat32? row, ← nat32? col⟩

/-- Writes a location. -/
def Location.toJson (l : Location) : Json := .obj [("row", .nat l.row), ("col", .nat l.col)]

/-- Reads the kind of an instance. -/
def InstanceKind.ofJson? : Json → Option InstanceKind :=
  choice? [("functional-unit", .functionalUnit), ("register", .register)]

/-- The word for the kind of an instance. -/
def InstanceKind.word : InstanceKind → String
  | functionalUnit => "functional-unit"
  | register => "register"

/-- Reads an instance. -/
def Instance.ofJson? (j : Json) : Option Instance := do
  let [some name, some kind, some inputPorts, some outputPorts, ops] ←
    record? ["name", "kind", "input_ports", "output_ports", "ops"] j | none
  some ⟨← string? name, ← InstanceKind.ofJson? kind, ← list? string? inputPorts, ← list? string? outputPorts,
    SortedSet.ofList (← orDefault [] (list? string?) ops)⟩

/-- A list of strings. -/
def Json.strings (l : List String) : Json := .arr (l.map .str)

/-- Writes an instance. -/
def Instance.toJson (i : Instance) : Json :=
  .obj [("name", .str i.name), ("kind", .str i.kind.word), ("input_ports", .strings i.inputPorts),
    ("output_ports", .strings i.outputPorts), ("ops", .strings i.ops.toList)]

/-- Reads a mux. -/
def Mux.ofJson? (j : Json) : Option Mux := do
  let [some name, some inputPorts, some outputPort] ← record? ["name", "input_ports", "output_port"] j | none
  some ⟨← string? name, ← list? string? inputPorts, ← string? outputPort⟩

/-- Writes a mux. -/
def Mux.toJson (m : Mux) : Json :=
  .obj [("name", .str m.name), ("input_ports", .strings m.inputPorts), ("output_port", .str m.outputPort)]

/-- Reads an operand port. -/
def OperandPort.ofJson? (j : Json) : Option OperandPort := do
  let [some name, some inputPort, some outputPort, some operand] ←
    record? ["name", "input_port", "output_port", "operand"] j | none
  some ⟨← string? name, ← string? inputPort, ← string? outputPort, ← nat32? operand⟩

/-- Writes an operand port. -/
def OperandPort.toJson (p : OperandPort) : Json :=
  .obj [("name", .str p.name), ("input_port", .str p.inputPort), ("output_port", .str p.outputPort),
    ("operand", .nat p.operand)]

/-- Reads a block. -/
def Block.ofJson? (j : Json) : Option Block := do
  let [some location, instances, muxes, operandPorts] ←
    record? ["location", "instances", "muxes", "operand_ports"] j | none
  some ⟨← Location.ofJson? location, ← orDefault [] (list? Instance.ofJson?) instances,
    ← orDefault [] (list? Mux.ofJson?) muxes, ← orDefault [] (list? OperandPort.ofJson?) operandPorts⟩

/-- Writes a block. -/
def Block.toJson (b : Block) : Json :=
  .obj [("location", b.location.toJson), ("instances", .arr (b.instances.map (·.toJson))),
    ("muxes", .arr (b.muxes.map (·.toJson))), ("operand_ports", .arr (b.operandPorts.map (·.toJson)))]

/-- Reads an address. -/
def Address.ofJson? (j : Json) : Option Address := do
  let [some location, some element, some port] ← record? ["location", "element", "port"] j | none
  some ⟨← Location.ofJson? location, ← string? element, ← string? port⟩

/-- Writes an address. -/
def Address.toJson (a : Address) : Json :=
  .obj [("location", a.location.toJson), ("element", .str a.element), ("port", .str a.port)]

/-- Reads a tie. -/
def Tie.ofJson? (j : Json) : Option Tie := do
  let [some src, some dst] ← record? ["src", "dst"] j | none
  some ⟨← Address.ofJson? src, ← Address.ofJson? dst⟩

/-- Writes a tie. -/
def Tie.toJson (t : Tie) : Json := .obj [("src", t.src.toJson), ("dst", t.dst.toJson)]

namespace Fabric

/-- Reads a fabric, well formed or not. -/
def ofJson? (j : Json) : Option Fabric := do
  let [some blocks, ties] ← record? ["blocks", "ties"] j | none
  some ⟨← list? Block.ofJson? blocks, ← orDefault [] (list? Tie.ofJson?) ties⟩

/-- Writes a fabric. -/
def toJson (f : Fabric) : Json :=
  .obj [("blocks", .arr (f.blocks.map (·.toJson))), ("ties", .arr (f.ties.map (·.toJson)))]

/-- Reasons why a text gives no fabric. -/
inductive LoadError where
  | malformed
  | invalid (e : Error)
  deriving DecidableEq, Repr

/-- The fabric that a text describes, if it is well formed. -/
def load (text : String) : Except LoadError Fabric := do
  let some f := (Json.parse? text).bind ofJson? | throw .malformed
  f.validate.mapError .invalid
  pure f

end Fabric
end PlaceRoute
