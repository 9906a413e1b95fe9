import PlaceRoute.Json.Record
import PlaceRoute.Session.PlaceAndRoute

/-!
# Reports

A mapping with names instead of numbers, as text and as JSON, and the time that a session took.
-/

namespace PlaceRoute

/-- A routed flow by names. -/
structure Report.Route where
  /-- The operation that the net comes from. -/
  net : String
  /-- The operation and the operand that the flow ends at. -/
  terminal : String
  nodes : List String
  deriving DecidableEq, Repr, Inhabited

/-- The bounds of a search. -/
structure Report.Bounds where
  lower : Nat
  upper : Nat
  provenOptimal : Bool
  frozenLower : Option Nat
  iterations : Nat
  deriving DecidableEq, Repr, Inhabited

/-- A mapping by names. -/
structure Report where
  /-- The units of each operation. -/
  placements : SortedMap String (List String)
  routes : List Report.Route
  routingNodesUsed : Nat
  objective : Option Report.Bounds := none
  deriving DecidableEq, Inhabited

namespace Report

/-- The bounds of an optimum. -/
def Bounds.ofOptimum (o : Optimum) : Bounds where
  lower := o.lower
  upper := o.upper
  provenOptimal := o.provenOptimal
  frozenLower := o.frozenLower
  iterations := o.iterations

/-- The report of a mapping. -/
def ofSolution (g : Graph) (d : Design) (s : Solution) : Report where
  placements := .ofList (s.placements.toList.map fun (op, units) => (d.nameOf op, units.map g.nameOf))
  routes := s.paths.map fun path => {
    net := ((d.value? path.value).map fun v => d.nameOf v.src).getD ""
    terminal := d.terminalText path.terminal
    nodes := path.nodes.map g.nameOf }
  routingNodesUsed := s.routingNodesUsed g

/-- The report of a run, if it found a mapping. -/
def ofOutcome (g : Graph) (d : Design) (o : Outcome) : Option Report := o.solution.map fun s =>
  { ofSolution g d s with
    objective := match o.optimization with
      | some (.best optimum) => some (.ofOptimum optimum)
      | _ => none }

/-- The lines about a search. -/
def Bounds.lines (b : Bounds) : List String :=
  let state := if b.provenOptimal then "optimal" else "bounded"
  s!"objective: {b.upper} ({state}, lower bound {b.lower}, {b.iterations} probes)" ::
    b.frozenLower.toList.map fun n => s!"frozen placement lower bound: {n}"

/-- The lines of a report. -/
def lines (r : Report) : List String :=
  "placement:" :: (r.placements.toList.map fun (op, units) => s!"  {op} -> " ++ ", ".intercalate units) ++
  "routing:" :: (r.routes.map fun route =>
    s!"  {route.net} -> {route.terminal}: " ++ " > ".intercalate route.nodes) ++
  s!"routing nodes used: {r.routingNodesUsed}" :: (r.objective.toList.flatMap Bounds.lines)

/-- A report as text, without a newline at its end. -/
def text (r : Report) : String := "\n".intercalate r.lines

/-- Bounds as JSON. -/
def Bounds.toJson (b : Bounds) : Json :=
  .obj ([("lower", .nat b.lower), ("upper", .nat b.upper), ("proven_optimal", .bool b.provenOptimal)] ++
    (b.frozenLower.toList.map fun n => ("frozen_lower", .nat n)) ++ [("iterations", .nat b.iterations)])

/-- A report as JSON. -/
def toJson (r : Report) : Json :=
  let names (l : List String) : Json := .arr (l.map .str)
  .obj ([("placements", .obj (r.placements.toList.map fun (op, units) => (op, names units))),
    ("routes", .arr (r.routes.map fun route =>
      .obj [("net", .str route.net), ("terminal", .str route.terminal), ("nodes", names route.nodes)])),
    ("routing_nodes_used", .nat r.routingNodesUsed)] ++
    r.objective.toList.map fun b => ("objective", b.toJson))

/-- The route in a document. -/
def Route.ofJson? (j : Json) : Option Route := do
  match ← j.record? ["net", "terminal", "nodes"] with
  | [some net, some terminal, some nodes] =>
    some ⟨← net.string?, ← terminal.string?, ← nodes.list? Json.string?⟩
  | _ => none

/-- The bounds in a document. -/
def Bounds.ofJson? (j : Json) : Option Bounds := do
  match ← j.record? ["lower", "upper", "proven_optimal", "frozen_lower", "iterations"] with
  | [some (.nat lower), some (.nat upper), some (.bool provenOptimal), frozenLower, some (.nat iterations)] =>
    some ⟨lower, upper, provenOptimal, ← (frozenLower.getD .null).orNull? Json.nat?, iterations⟩
  | _ => none

/-- The lists of names in an object. -/
def placementsOfJson? : Json → Option (SortedMap String (List String))
  | .obj fields => do
    return .ofList (← fields.mapM fun (op, units) => do return (op, ← units.list? Json.string?))
  | _ => none

/-- The report in a document. -/
def ofJson? (j : Json) : Option Report := do
  match ← j.record? ["placements", "routes", "routing_nodes_used", "objective"] with
  | [some placements, some routes, some (.nat used), objective] =>
    some ⟨← placementsOfJson? placements, ← routes.list? Route.ofJson?, used,
      ← (objective.getD .null).orNull? Bounds.ofJson?⟩
  | _ => none

end Report

/-- A count of units as JSON. -/
def Feasibility.toJson : Feasibility → Json
  | feasible => .str "Feasible"
  | infeasible opcode demand supply =>
    .obj [("Infeasible", .obj [("opcode", .str opcode), ("demand", .nat demand), ("supply", .nat supply)])]

/-- The time that a session took, in nanoseconds. -/
structure Timings where
  build : Nat
  solve : Nat
  deriving DecidableEq, Repr, Inhabited

namespace Timings

/-- The time that a session took so far. -/
def ofSession (s : Session) : Timings := ⟨s.buildTime, s.solveTime⟩

/-- A span of time in seconds. -/
def seconds (nanoseconds : Nat) : Float :=
  (nanoseconds / 1000000000).toFloat + (nanoseconds % 1000000000).toFloat / 1e9

/-- The times as text, in seconds with three places. -/
def text (t : Timings) : String :=
  "build " ++ Decimal.fixedText 3 (seconds t.build) ++ "s, solve " ++ Decimal.fixedText 3 (seconds t.solve) ++ "s"

/-- A span of time as JSON. -/
def spanJson (nanoseconds : Nat) : Json :=
  .obj [("secs", .nat (nanoseconds / 1000000000)), ("nanos", .nat (nanoseconds % 1000000000))]

/-- The times as JSON. -/
def toJson (t : Timings) : Json := .obj [("build", spanJson t.build), ("solve", spanJson t.solve)]

end Timings
end PlaceRoute
