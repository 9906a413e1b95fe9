import PlaceRoute.Fabric.Basic
import PlaceRoute.Graph.Relation

/-!
# Nodes of the resource graph

A node is one copy of a hardware element in one context. Its wiring is a relation from its input ports to their drivers
and one from its output ports to the inputs that they reach.
-/

namespace PlaceRoute

/-- The number of a node. -/
abbrev NodeId := Nat

/-- A port of a node. -/
structure Endpoint where
  node : NodeId
  port : String
  deriving DecidableEq, Repr, Inhabited

namespace Endpoint

instance : Ord Endpoint := ⟨compareLex (compareOn node) (compareOn port)⟩

instance : Std.TransOrd Endpoint := inferInstanceAs (Std.TransCmp (compareLex (compareOn node) (compareOn port)))

instance : Std.LawfulEqOrd Endpoint where
  eq_of_compare {a b} h := by
    obtain ⟨hn, hp⟩ := compareLex_eq_eq.mp h
    cases a; cases b
    cases Std.LawfulEqOrd.eq_of_compare (α := Nat) hn
    cases Std.LawfulEqOrd.eq_of_compare (α := String) hp
    rfl

end Endpoint

/-- A directed edge from an output port to an input port. -/
structure Edge where
  src : NodeId
  srcPort : String
  dst : NodeId
  dstPort : String
  deriving DecidableEq, Repr, Inhabited

/-- What a node does. -/
inductive NodeKind where
  /-- Executes opcodes; each bound operand has the operand port that feeds it. -/
  | functionalUnit (ops : SortedSet String) (operands : SortedMap Nat NodeId)
  /-- Passes one of its inputs on. -/
  | mux
  /-- Delays by one context. -/
  | register
  /-- Feeds one operand of a functional unit. -/
  | operandPort (operand : Nat)
  /-- Passes its input on, put in to break a cycle of muxes. -/
  | tie
  deriving DecidableEq, Inhabited

/-- The word for a kind of node in node names. -/
def NodeKind.label : NodeKind → String
  | functionalUnit _ _ => "FunctionalUnit"
  | mux => "Mux"
  | register => "Register"
  | operandPort _ => "Port"
  | tie => "Tie"

/-- A node with its wiring. -/
structure Node where
  id : NodeId
  name : String
  context : Nat
  kind : NodeKind
  /-- The driver of each input port that has one. -/
  inputs : Relation String Endpoint
  /-- The inputs that each output port drives. -/
  outputs : Relation String Endpoint
  deriving Inhabited

namespace Node

/-- The driver of an input port. -/
def driver? (n : Node) (port : String) : Option Endpoint := (n.inputs.valuesOf port).head?

/-- The nodes that drive this one, in order and each once. -/
def fanin (n : Node) : List NodeId := (SortedSet.ofList (n.inputs.pairs.map (·.2.node))).toList

/-- The nodes that this one drives, in order and each once. -/
def fanout (n : Node) : List NodeId := (SortedSet.ofList (n.outputs.pairs.map (·.2.node))).toList

/-- The edges into the node, by input port. -/
def incoming (n : Node) : List Edge := n.inputs.pairs.map fun (port, e) => ⟨e.node, e.port, n.id, port⟩

/-- The edges out of the node, by output port. -/
def outgoing (n : Node) : List Edge := n.outputs.pairs.map fun (port, e) => ⟨n.id, port, e.node, e.port⟩

/-- Whether the node executes operations. -/
def isUnit (n : Node) : Bool := n.kind matches .functionalUnit _ _

/-- Whether the node is a mux. -/
def isMux (n : Node) : Bool := n.kind matches .mux

/-- Whether the node is a register. -/
def isRegister (n : Node) : Bool := n.kind matches .register

/-- Whether the node is an operand port. -/
def isOperandPort (n : Node) : Bool := n.kind matches .operandPort _

/-- The opcodes of a functional unit. -/
def ops? (n : Node) : Option (SortedSet String) :=
  match n.kind with
  | .functionalUnit ops _ => some ops
  | _ => none

/-- Whether the node can execute an opcode. -/
def supports (n : Node) (opcode : String) : Bool := n.ops?.any fun ops => decide (opcode ∈ ops)

/-- The operands of a functional unit and the ports that feed them. -/
def operands (n : Node) : SortedMap Nat NodeId :=
  match n.kind with
  | .functionalUnit _ operands => operands
  | _ => ∅

/-- The port that feeds an operand of a functional unit. -/
def operandPort? (n : Node) (operand : Nat) : Option NodeId := n.operands.get? operand

end Node
end PlaceRoute
