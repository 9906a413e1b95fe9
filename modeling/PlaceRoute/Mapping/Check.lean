import PlaceRoute.Mapping.Key
import PlaceRoute.Text

/-!
# Checking mappings

`verify` reads placements and routed paths out of a model and checks them against graph and design, without a look at
the constraints that the model was made by. A path follows, node by node, the only driven node that carries the flow.
-/

namespace PlaceRoute

/-- A flow from a source unit to an operand port. -/
structure RoutedPath where
  value : ValueId
  terminal : Terminal
  /-- The nodes from the unit to the port, both included. -/
  nodes : List NodeId
  deriving DecidableEq, Repr, Inhabited

namespace RoutedPath

/-- The unit that the path starts at. -/
def source (p : RoutedPath) : NodeId := p.nodes.headD 0

/-- The operand port that the path ends at. -/
def sink (p : RoutedPath) : NodeId := p.nodes.getLastD 0

end RoutedPath

/-- A mapping that passed the check. -/
structure Solution where
  /-- The units of each operation. -/
  placements : SortedMap OpId (List NodeId)
  paths : List RoutedPath
  /-- The routing nodes that carry each net, for nets that any carries. -/
  nets : SortedMap ValueId (SortedSet NodeId)
  deriving DecidableEq, Inhabited

namespace Solution

/-- The routing nodes that carry a net. -/
def carriedNodes (s : Solution) (value : ValueId) : List NodeId := ((s.nets.get? value).getD ∅).toList

/-- The nodes of all paths. -/
def usedNodes (s : Solution) : SortedSet NodeId := SortedSet.ofList (s.paths.flatMap (·.nodes))

/-- The number of routing nodes on paths. -/
def routingNodesUsed (s : Solution) (g : Graph) : Nat :=
  s.usedNodes.toList.countP fun n => !(g.node? n).any (·.isUnit)

end Solution

/-- Reasons why a model is no mapping. -/
inductive CheckError where
  | unplaced (op : String)
  | replicated (op : String) (count : Nat)
  | overloaded (unit : String) (ops : List String)
  | unsupported (op opcode unit : String)
  | sharedNode (node : String) (count : Nat)
  | flowWithoutNet (node : String) (value : ValueId)
  | deadEnd (value : ValueId) (terminal node : String)
  | branch (value : ValueId) (terminal node : String)
  | loop (value : ValueId) (terminal : String)
  | unreached (value : ValueId) (terminal port : String)
  deriving DecidableEq, Repr

/-- The text of a refusal. -/
def CheckError.message : CheckError → String
  | unplaced op => s!"operation {op} is not placed"
  | replicated op count => s!"operation {op} is placed {count} times"
  | overloaded unit ops => s!"unit {unit} hosts " ++ Text.quoteList ops
  | unsupported op opcode unit => s!"operation {op} ({opcode}) placed on unit {unit} which does not support it"
  | sharedNode node count => s!"node {node} carries {count} nets"
  | flowWithoutNet node value => s!"node {node} carries a flow of net {value} but not the net itself"
  | deadEnd value terminal node => s!"net {value} toward {terminal} dead-ends at {node}"
  | branch value terminal node => s!"net {value} toward {terminal} branches at {node}"
  | loop value terminal => s!"net {value} toward {terminal} loops"
  | unreached value terminal port => s!"net {value} never reaches {terminal} at {port}"

/-- The name of a node. -/
def Graph.nameOf (g : Graph) (n : NodeId) : String := ((g.node? n).map (·.name)).getD ""

/-- The name of an operation. -/
def Design.nameOf (d : Design) (op : OpId) : String := ((d.op? op).map (·.name)).getD ""

/-- A terminal as its operation's name and its operand. -/
def Design.terminalText (d : Design) (t : Terminal) : String := s!"{d.nameOf t.op}.{t.operand}"

namespace Model
section
variable (g : Graph) (d : Design) (m : Model)

/-- Checks that an operation is placed, once unless it may be duplicated, and on units that support it. -/
def checkOperation (op : Operation) : Except CheckError Unit := do
  let units := m.hosts g op.id
  if units.isEmpty then throw (.unplaced op.name)
  if units.length ≠ 1 ∧ !op.duplicate then throw (.replicated op.name units.length)
  match units.find? fun u => !(g.node? u).any (·.supports op.opcode) with
  | some u => throw (.unsupported op.name op.opcode (g.nameOf u))
  | none => pure ()

/-- Checks that a unit hosts at most one operation. -/
def checkUnit (u : NodeId) : Except CheckError Unit :=
  let hosted := (d.operations.filter fun op => m.isSet (.place u op.id)).map (·.name)
  if 1 < hosted.length then .error (.overloaded (g.nameOf u) hosted) else .ok ()

/-- Checks the placements and returns them. -/
def checkPlacement : Except CheckError (SortedMap OpId (List NodeId)) := do
  d.operations.forM (m.checkOperation g)
  g.units.forM (m.checkUnit g d)
  pure (.ofList (d.operations.map fun op => (op.id, m.hosts g op.id)))

/-- Whether a node carries some flow of a value. -/
def carriesFlow (n : NodeId) (v : Value) : Bool := v.dsts.any fun t => m.isSet (.routeTo n v.id t)

/-- Checks that a node carries a net where it carries a flow, and one net at most. -/
def checkNode (n : NodeId) : Except CheckError Unit := do
  d.values.forM fun v =>
    if m.carriesFlow n v && !m.isSet (.route n v.id) then throw (.flowWithoutNet (g.nameOf n) v.id) else pure ()
  let nets := d.values.countP fun v => m.isSet (.route n v.id)
  if 1 < nets then throw (.sharedNode (g.nameOf n) nets)

/-- The routing nodes of the nets that some routing node carries. -/
def carriedNets : SortedMap ValueId (SortedSet NodeId) :=
  (SortedMap.ofList (d.values.map fun v =>
    (v.id, SortedSet.ofList (g.routing.filter fun n => m.isSet (.route n v.id))))).filter fun _ nodes => !nodes.isEmpty

/-- Checks all nodes and returns what they carry. -/
def checkNodes : Except CheckError (SortedMap ValueId (SortedSet NodeId)) := do
  g.ids.forM (m.checkNode g d)
  pure (m.carriedNets g d)

/-- The nodes that a flow goes on to from a node. -/
def nextNodes (v : ValueId) (t : Terminal) (n : NodeId) : List NodeId :=
  (g.fanout n).filter fun next => m.isSet (.routeTo next v t)

/-- The nodes of a walk from `n` to its first target, at most `fuel` steps away. -/
def walk (v : ValueId) (t : Terminal) (targets : List NodeId) : Nat → NodeId → Except CheckError (List NodeId)
  | fuel, n =>
    if n ∈ targets then .ok [n]
    else match fuel with
      | 0 => .error (.loop v (d.terminalText t))
      | fuel + 1 =>
        match m.nextNodes g v t n with
        | [next] => do return n :: (← walk v t targets fuel next)
        | [] => .error (.deadEnd v (d.terminalText t) (g.nameOf n))
        | _ => .error (.branch v (d.terminalText t) (g.nameOf n))

/-- The operand ports at which a terminal's flow ends: those of the units that host its operation. -/
def targets (t : Terminal) : SortedSet NodeId :=
  SortedSet.ofList ((m.hosts g t.op).filterMap fun u => (g.node? u).bind (·.operandPort? t.operand))

/-- The paths of one flow, from each host of the source that carries it; every target has to end one. -/
def traceFlow (v : Value) (t : Terminal) : Except CheckError (List RoutedPath) := do
  let targets := m.targets g t
  let sources := (m.hosts g v.src).filter fun u => m.isSet (.routeTo u v.id t)
  let paths ← sources.mapM fun source => do
    let nodes ← m.walk g d v.id t targets.toList (g.routing.length + 1) source
    return (⟨v.id, t, nodes⟩ : RoutedPath)
  match targets.toList.find? fun port => port ∉ paths.map (·.sink) with
  | some port => throw (.unreached v.id (d.terminalText t) (g.nameOf port))
  | none => pure paths

/-- The paths of all flows. -/
def tracePaths : Except CheckError (List RoutedPath) := do
  let paths ← d.values.mapM fun v => do return (← v.dsts.mapM (m.traceFlow g d v)).flatten
  pure paths.flatten

/-- Checks a model and returns its mapping. -/
def verify : Except CheckError Solution := do
  let placements ← m.checkPlacement g d
  let nets ← m.checkNodes g d
  let paths ← m.tracePaths g d
  pure ⟨placements, paths, nets⟩

end
end Model
end PlaceRoute
