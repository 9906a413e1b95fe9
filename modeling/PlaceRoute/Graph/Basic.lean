import PlaceRoute.Graph.Node

/-!
# Resource graphs

The finished graph: nodes at the index that is their number, split into functional units and routing nodes, and the
queries on the whole graph.
-/

namespace PlaceRoute

/-- A graph of hardware resources over one or more contexts. -/
structure Graph where
  nodes : Array Node
  /-- The numbers of the functional units in order. -/
  units : List NodeId
  /-- The numbers of all other nodes in order. -/
  routing : List NodeId
  contexts : Nat
  deriving Inhabited

/-- Counts over a resource graph. -/
structure Graph.Stats where
  contexts : Nat
  functionalUnits : Nat
  muxes : Nat
  registers : Nat
  operandPorts : Nat
  ties : Nat
  edges : Nat
  deriving DecidableEq, Repr

namespace Graph

/-- The node with a number. -/
def node? (g : Graph) (id : NodeId) : Option Node := g.nodes[id]?

/-- The first node with a name. -/
def nodeByName? (g : Graph) (name : String) : Option Node := g.nodes.toList.find? (·.name = name)

/-- The numbers of all nodes in order. -/
def ids (g : Graph) : List NodeId := g.nodes.toList.map (·.id)

/-- All edges, by source node. -/
def edges (g : Graph) : List Edge := g.nodes.toList.flatMap (·.outgoing)

/-- The nodes that drive a node. -/
def fanin (g : Graph) (id : NodeId) : List NodeId := ((g.node? id).map (·.fanin)).getD []

/-- The nodes that a node drives. -/
def fanout (g : Graph) (id : NodeId) : List NodeId := ((g.node? id).map (·.fanout)).getD []

/-- The counts over the graph. -/
def stats (g : Graph) : Stats where
  contexts := g.contexts
  functionalUnits := g.nodes.toList.countP (·.isUnit)
  muxes := g.nodes.toList.countP (·.isMux)
  registers := g.nodes.toList.countP (·.isRegister)
  operandPorts := g.nodes.toList.countP (·.isOperandPort)
  ties := g.nodes.toList.countP (·.kind matches .tie)
  edges := g.nodes.foldl (fun total n => total + n.outputs.size) 0

/-- The number of functional units that support each opcode. -/
def opcodeSupply (g : Graph) : SortedMap String Nat :=
  (g.units.flatMap fun u => (((g.node? u).bind (·.ops?)).getD ∅).toList).foldl
    (fun supply opcode => supply.alter opcode fun n => n.getD 0 + 1) ∅

end Graph
end PlaceRoute
