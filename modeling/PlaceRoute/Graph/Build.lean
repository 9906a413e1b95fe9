import PlaceRoute.Graph.Cycle
import PlaceRoute.Graph.Options

/-!
# From fabrics to resource graphs

`Graph.build` makes a copy of every element for each context and wires every tie in each; what leaves a register
arrives in the next context. With one context registers may be elided. Then cycles of muxes are broken by tie nodes,
short loops are refused and the nodes are numbered without gaps.
-/

namespace PlaceRoute
namespace Graph

/-- Reasons why a fabric gives no resource graph. -/
inductive BuildError where
  | noContexts
  | allocatedTwice (element : String) (location : Location)
  | unresolvedTie (address : Address)
  | missingNode (id : NodeId)
  | selfEdge (node srcPort dstPort : String)
  | noOutputPort (node port : String)
  | noInputPort (node port : String)
  | alreadyDriven (node port : String) (driver : NodeId) (src : String)
  | notFromOperandPort (node port src : String)
  | operandBoundTwice (node : String) (operand : Nat)
  | undeclaredPort
  | missingEdge (src dst : NodeId)
  | removedNode (id : NodeId)
  | selfLoop (node : String)
  | twoHopLoop (node via : String)
  deriving DecidableEq, Repr

/-- The text of a failure. -/
def BuildError.message : BuildError → String
  | noContexts => "contexts must be at least 1"
  | allocatedTwice element location => s!"element '{element}' at {location} allocated twice"
  | unresolvedTie address => s!"tie address {address} has no node"
  | missingNode id => s!"node {id} does not exist"
  | selfEdge node srcPort dstPort => s!"self edge on {node} ({srcPort} -> {dstPort})"
  | noOutputPort node port => s!"{node} has no output port {port}"
  | noInputPort node port => s!"{node} has no input port {port}"
  | alreadyDriven node port driver src => s!"{node}.{port} already driven by node {driver}, cannot add {src}"
  | notFromOperandPort node port src => s!"{node} input {port} driven by non-port {src}"
  | operandBoundTwice node operand => s!"{node} operand {operand} bound twice"
  | undeclaredPort => Relation.Error.undeclaredKey.message
  | missingEdge src dst => s!"unwire of missing edge {src} -> {dst}"
  | removedNode id => s!"edge to removed node {id}"
  | selfLoop node => s!"self loop on {node}"
  | twoHopLoop node via => s!"two-hop loop {node} -> {via} -> {node}"

/-- The failure where a relation of ports refuses a pair. -/
def BuildError.ofRefusal : Relation.Error → BuildError
  | .undeclaredKey => .undeclaredPort

/-- One copy of an element. -/
structure Copy where
  context : Nat
  location : Location
  element : String
  deriving DecidableEq, Repr

/-- A graph in the making; a removed node leaves its slot empty. -/
structure Draft where
  slots : Array (Option Node)
  /-- The node of each copy of an element. -/
  copies : List (Copy × NodeId)
  deriving Inhabited

namespace Draft

/-- The draft without nodes. -/
def empty : Draft := ⟨#[], []⟩

/-- The node with a number, if it is there. -/
def node? (d : Draft) (id : NodeId) : Option Node := d.slots[id]?.join

/-- The nodes that are there, in order. -/
def nodes (d : Draft) : List Node := d.slots.toList.filterMap id

/-- The numbers of the nodes that are there, in order. -/
def ids (d : Draft) : List NodeId := d.nodes.map (·.id)

/-- The node with a number, which has to be there. -/
def node (d : Draft) (id : NodeId) : Except BuildError Node :=
  match d.node? id with
  | some n => .ok n
  | none => .error (.missingNode id)

/-- Puts a node at its number. -/
def setNode (d : Draft) (n : Node) : Draft := { d with slots := d.slots.setIfInBounds n.id (some n) }

/-- Takes a node out. -/
def removeNode (d : Draft) (id : NodeId) : Draft := { d with slots := d.slots.setIfInBounds id none }

/-- Adds a node without wires, under the next number. -/
def addNode (d : Draft) (name : String) (context : Nat) (kind : NodeKind) (inputs outputs : List String) :
    NodeId × Draft :=
  let id := d.slots.size
  let node : Node :=
    ⟨id, name, context, kind, .new (SortedSet.ofList inputs), .new (SortedSet.ofList outputs)⟩
  (id, { d with slots := d.slots.push (some node) })

/-- The kind of node that an element becomes. -/
def kindOf : Element → NodeKind
  | .ofInstance i => if i.kind = .register then .register else .functionalUnit i.ops ∅
  | .ofMux _ => .mux
  | .ofOperandPort p => .operandPort p.operand

/-- The name of the copy of an element in a context. -/
def nameOf (e : Element) (context : Nat) (location : Location) : String :=
  s!"{(kindOf e).label}_{e.name}_{context}_{location.row}_{location.col}"

/-- Adds the copy of an element in a context. -/
def addCopy (context : Nat) (location : Location) (d : Draft) (e : Element) : Except BuildError Draft :=
  let copy : Copy := ⟨context, location, e.name⟩
  let (id, d) := d.addNode (nameOf e context location) context (kindOf e) e.inputPorts e.outputPorts
  if (d.copies.lookup copy).isSome then .error (.allocatedTwice e.name location)
  else .ok { d with copies := (copy, id) :: d.copies }

/-- Adds the copies of all elements in a context. -/
def addContext (f : Fabric) (d : Draft) (context : Nat) : Except BuildError Draft :=
  f.blocks.foldlM (fun d b => b.elements.foldlM (addCopy context b.location) d) d

/-- Adds the copies of all elements in every context. -/
def instantiate (f : Fabric) (contexts : Nat) (d : Draft) : Except BuildError Draft :=
  (List.range contexts).foldlM (addContext f) d

/-- The node of an address in a context. -/
def resolve (d : Draft) (context : Nat) (a : Address) : Except BuildError NodeId :=
  match d.copies.lookup ⟨context, a.location, a.element⟩ with
  | some id => .ok id
  | none => .error (.unresolvedTie a)

/-- Records a new driver at an input port that is declared. -/
def insertPort (r : Relation String Endpoint) (port : String) (e : Endpoint) :
    Except BuildError (Relation String Endpoint) :=
  (r.insert port e).mapError .ofRefusal

/-- The kind of the driven node when the edge is there: a unit binds the operand of the port that drives it. -/
def bindOperand (src dst : Node) (dstPort : String) : Except BuildError NodeKind :=
  match dst.kind with
  | .functionalUnit ops operands =>
    match src.kind with
    | .operandPort operand =>
      if operands.contains operand then .error (.operandBoundTwice dst.name operand)
      else .ok (.functionalUnit ops (operands.insert operand src.id))
    | _ => .error (.notFromOperandPort dst.name dstPort src.name)
  | kind => .ok kind

/-- Adds an edge. -/
def wire (d : Draft) (e : Edge) : Except BuildError Draft := do
  let src ← d.node e.src
  if e.src = e.dst then throw (.selfEdge src.name e.srcPort e.dstPort)
  if !src.outputs.declares e.srcPort then throw (.noOutputPort src.name e.srcPort)
  let dst ← d.node e.dst
  if !dst.inputs.declares e.dstPort then throw (.noInputPort dst.name e.dstPort)
  if let some driver := dst.driver? e.dstPort then
    throw (.alreadyDriven dst.name e.dstPort driver.node src.name)
  let kind ← bindOperand src dst e.dstPort
  let inputs ← insertPort dst.inputs e.dstPort ⟨e.src, e.srcPort⟩
  let outputs ← insertPort src.outputs e.srcPort ⟨e.dst, e.dstPort⟩
  pure ((d.setNode { dst with kind, inputs }).setNode { src with outputs })

/-- The kind of a node that `port` drives no longer. -/
def unbindOperand (kind : NodeKind) (port : NodeId) : NodeKind :=
  match kind with
  | .functionalUnit ops operands => .functionalUnit ops (operands.filter fun _ p => p ≠ port)
  | kind => kind

/-- Removes an edge. -/
def unwire (d : Draft) (e : Edge) : Except BuildError Draft := do
  let src ← d.node e.src
  let (fromSrc, outputs) := src.outputs.remove e.srcPort ⟨e.dst, e.dstPort⟩
  let d := d.setNode { src with outputs }
  let dst ← d.node e.dst
  let (fromDst, inputs) := dst.inputs.remove e.dstPort ⟨e.src, e.srcPort⟩
  if !(fromSrc && fromDst) then throw (.missingEdge e.src e.dst)
  pure (d.setNode { dst with kind := unbindOperand dst.kind e.src, inputs })

/-- Wires a tie in a context. -/
def wireTie (contexts context : Nat) (d : Draft) (tie : Tie) : Except BuildError Draft := do
  let src ← d.resolve context tie.src
  let arrival := if (← d.node src).isRegister then (context + 1) % contexts else context
  let dst ← d.resolve arrival tie.dst
  d.wire ⟨src, tie.src.port, dst, tie.dst.port⟩

/-- Wires all ties in every context. -/
def wireTies (f : Fabric) (contexts : Nat) (d : Draft) : Except BuildError Draft :=
  (List.range contexts).foldlM (fun d context => f.ties.foldlM (wireTie contexts context) d) d

/-- Takes a register out and wires its driver, if it has one, to its consumers. -/
def elideRegister (d : Draft) (id : NodeId) : Except BuildError Draft := do
  let register ← d.node id
  let incoming := register.incoming
  let outgoing := register.outgoing
  let d ← (incoming ++ outgoing).foldlM unwire d
  let d ← match incoming with
    | [] => pure d
    | driver :: _ => outgoing.foldlM (fun d e => d.wire ⟨driver.src, driver.srcPort, e.dst, e.dstPort⟩) d
  pure (d.removeNode id)

/-- Takes all registers out. -/
def elideRegisters (d : Draft) : Except BuildError Draft :=
  ((d.nodes.filter (·.isRegister)).map (·.id)).foldlM elideRegister d

/-- The name of the tie node on an edge. -/
def tieName (src dst : Node) (e : Edge) : String := s!"Tie_{src.name}_{e.srcPort}_{dst.name}_{e.dstPort}"

/-- The output port of the tie node on an edge; its input port is the edge's own. -/
def tieOutput (e : Edge) : String := if e.srcPort = e.dstPort then s!"{e.srcPort}_out" else e.srcPort

/-- Puts a tie node on an edge. -/
def splitWithTie (d : Draft) (e : Edge) : Except BuildError Draft := do
  let d ← d.unwire e
  let src ← d.node e.src
  let dst ← d.node e.dst
  let (tie, d) := d.addNode (tieName src dst e) src.context .tie [e.dstPort] [tieOutput e]
  let d ← d.wire ⟨e.src, e.srcPort, tie, e.dstPort⟩
  d.wire ⟨tie, tieOutput e, e.dst, e.dstPort⟩

/-- Puts tie nodes on edges that close a cycle of muxes until there is none, in at most `fuel` rounds. -/
def breakBackEdges : Nat → Draft → Except BuildError Draft
  | 0, d => .ok d
  | fuel + 1, d => do
    let back := muxBackEdges d.node? d.ids
    if back.isEmpty then pure d
    else breakBackEdges fuel (← back.foldlM splitWithTie d)

/-- The edges from mux to mux. -/
def allMuxEdges (d : Draft) : List Edge :=
  (d.nodes.filter (·.isMux)).flatMap fun n => muxEdges d.node? n.id

/-- Breaks cycles of muxes. Each round of `breakBackEdges` uses up edges between muxes, so their number bounds it. -/
def breakCycles (policy : CycleBreak) (d : Draft) : Except BuildError Draft :=
  match policy with
  | .backEdges => breakBackEdges (d.allMuxEdges.length + 1) d
  | .allMuxEdges => d.allMuxEdges.foldlM splitWithTie d
  | .none => .ok d

/-- Refuses a node that reaches itself over one or two edges. -/
def checkLoops (d : Draft) (n : Node) : Except BuildError Unit :=
  n.fanout.forM fun next => do
    if next = n.id then throw (.selfLoop n.name)
    let via ← d.node next
    if n.id ∈ via.fanout then throw (.twoHopLoop n.name via.name)

/-- Refuses short loops. -/
def checkShortLoops (d : Draft) : Except BuildError Unit := d.nodes.forM d.checkLoops

/-- The new number of a node: its place among the nodes that are left. -/
def renumber (left : List NodeId) (id : NodeId) : Except BuildError NodeId :=
  match left.idxOf? id with
  | some new => .ok new
  | none => .error (.removedNode id)

/-- An endpoint with the new number of its node. -/
def renumberEndpoint (left : List NodeId) (e : Endpoint) : Except BuildError Endpoint := do
  return { e with node := ← renumber left e.node }

/-- A kind of node with the new numbers of its operand ports. -/
def renumberKind (left : List NodeId) (kind : NodeKind) : Except BuildError NodeKind :=
  match kind with
  | .functionalUnit ops operands => do
    let operands ← operands.toList.mapM fun (operand, port) => do return (operand, ← renumber left port)
    return .functionalUnit ops (SortedMap.ofList operands)
  | kind => .ok kind

/-- A node with new numbers everywhere. -/
def renumberNode (left : List NodeId) (n : Node) : Except BuildError Node := do
  let inputs ← n.inputs.mapValues .ofRefusal (renumberEndpoint left)
  let outputs ← n.outputs.mapValues .ofRefusal (renumberEndpoint left)
  let kind ← renumberKind left n.kind
  return { n with id := ← renumber left n.id, kind, inputs, outputs }

/-- The finished graph. -/
def finish (d : Draft) (contexts : Nat) : Except BuildError Graph := do
  let nodes ← d.nodes.mapM (renumberNode d.ids)
  let (units, routing) := nodes.partition (·.isUnit)
  pure ⟨nodes.toArray, units.map (·.id), routing.map (·.id), contexts⟩

end Draft

/-- The resource graph of a fabric. -/
def build (f : Fabric) (options : GraphOptions) : Except BuildError Graph := do
  if options.contexts = 0 then throw .noContexts
  let d ← Draft.instantiate f options.contexts .empty
  let d ← d.wireTies f options.contexts
  let d ← if options.contexts = 1 ∧ options.registers = .elide then d.elideRegisters else pure d
  let d ← d.breakCycles options.cycleBreak
  d.checkShortLoops
  d.finish options.contexts

end Graph
end PlaceRoute
