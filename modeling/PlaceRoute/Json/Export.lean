import PlaceRoute.Graph.Basic
import PlaceRoute.Json.Basic
import PlaceRoute.Mapping.Check
import PlaceRoute.Settings.Basic

/-!
# Designs, graphs, mappings and settings as JSON

Of the settings the caller says how the numbers that are no integers are written.
-/

namespace PlaceRoute

/-- A map from numbers as an object. -/
def Json.ofMap {β : Type} (f : β → Json) (m : SortedMap Nat β) : Json :=
  .obj (m.toList.map fun (k, v) => (toString k, f v))

/-! ## Designs -/

/-- A terminal as JSON. -/
def Terminal.toJson (t : Terminal) : Json := .obj [("op", .nat t.op), ("operand", .nat t.operand)]

/-- An operation as JSON. -/
def Operation.toJson (op : Operation) : Json :=
  .obj [("id", .nat op.id), ("name", .str op.name), ("opcode", .str op.opcode), ("duplicate", .bool op.duplicate),
    ("output", (op.output.map .nat).getD .null), ("inputs", .ofMap .nat op.inputs)]

/-- A value as JSON. -/
def Value.toJson (v : Value) : Json :=
  .obj [("id", .nat v.id), ("src", .nat v.src), ("dsts", .arr (v.dsts.map Terminal.toJson))]

/-- A design as JSON. -/
def Design.toJson (d : Design) : Json :=
  .obj [("operations", .arr (d.operations.map Operation.toJson)), ("values", .arr (d.values.map Value.toJson))]

/-! ## Graphs -/

/-- A kind of node as JSON. -/
def NodeKind.toJson : NodeKind → Json
  | functionalUnit ops operands =>
    .obj [("FunctionalUnit", .obj [("ops", .arr (ops.toList.map .str)), ("operands", .ofMap .nat operands)])]
  | mux => .str "Mux"
  | register => .str "Register"
  | operandPort operand => .obj [("OperandPort", .obj [("operand", .nat operand)])]
  | tie => .str "Tie"

/-- A node as JSON. -/
def Node.toJson (n : Node) : Json :=
  let names (l : List String) : Json := .arr (l.map .str)
  let ids (l : List NodeId) : Json := .arr (l.map .nat)
  .obj [("id", .nat n.id), ("name", .str n.name), ("context", .nat n.context), ("kind", n.kind.toJson),
    ("label", .str n.kind.label), ("in_ports", names n.inputs.keys.toList), ("out_ports", names n.outputs.keys.toList),
    ("inputs", .arr (n.inputs.pairs.map fun (port, e) => .arr [.str port, .nat e.node, .str e.port])),
    ("fanin", ids n.fanin), ("fanout", ids n.fanout)]

/-- An edge as JSON. -/
def Edge.toJson (e : Edge) : Json :=
  .obj [("src", .nat e.src), ("src_port", .str e.srcPort), ("dst", .nat e.dst), ("dst_port", .str e.dstPort)]

/-- The counts over a graph as JSON. -/
def Graph.Stats.toJson (s : Graph.Stats) : Json :=
  .obj [("contexts", .nat s.contexts), ("functional_units", .nat s.functionalUnits), ("muxes", .nat s.muxes),
    ("registers", .nat s.registers), ("operand_ports", .nat s.operandPorts), ("ties", .nat s.ties),
    ("edges", .nat s.edges)]

/-! ## Mappings -/

/-- A path as JSON. -/
def RoutedPath.toJson (p : RoutedPath) : Json :=
  .obj [("value", .nat p.value), ("terminal", p.terminal.toJson), ("nodes", .arr (p.nodes.map .nat))]

namespace Solution

/-- The parts of a mapping as fields of an object. -/
def fields (s : Solution) : List (String × Json) :=
  [("placements", .ofMap (fun units => .arr (units.map .nat)) s.placements), ("paths", .arr (s.paths.map (·.toJson))),
    ("nets", .ofMap (fun nodes => .arr (nodes.toList.map .nat)) s.nets)]

/-- A mapping as JSON. -/
def toJson (s : Solution) : Json := .obj s.fields

end Solution
/-! ## Settings -/

/-- The word of a choice. -/
def Json.ofChoice {α : Type} [BEq α] (words : List (String × α)) (a : α) : Json :=
  ((words.find? (·.2 == a)).map fun entry => .str entry.1).getD .null

/-- The graph options as JSON. -/
def GraphOptions.toJson (o : GraphOptions) : Json :=
  .obj [("contexts", .nat o.contexts), ("cycle_break", .ofChoice CycleBreak.words o.cycleBreak),
    ("registers", .ofChoice RegisterPolicy.words o.registers)]

/-- The optimizer's settings as JSON. -/
def OptimizeSettings.toJson (number : Float → Json) (o : OptimizeSettings) : Json :=
  let orNull {α : Type} (f : α → Json) (a : Option α) : Json := (a.map f).getD .null
  .obj [("enabled", .bool o.enabled), ("objective", .ofChoice NodeFilter.words o.filter),
    ("encoding", .ofChoice PopcountEncoding.words o.encoding), ("incremental", .bool o.incremental),
    ("cutoff", orNull number o.cutoff), ("freeze_placement", .bool o.freezePlacement),
    ("final_cutoff", number o.finalCutoff), ("first_cut", .ofChoice FirstCut.words o.firstCut),
    ("max_iterations", orNull .nat o.maxIterations), ("time_budget_secs", orNull number o.timeBudget),
    ("check_models", .bool o.checkModels)]

/-- The settings as JSON. -/
def Settings.toJson (number : Float → Json) (s : Settings) : Json :=
  .obj [("mrrg", s.graph.toJson), ("design", .obj [("duplicate_opcodes", .arr (s.duplicateOpcodes.map .str))]),
    ("optimize", s.optimize.toJson number)]

end PlaceRoute
