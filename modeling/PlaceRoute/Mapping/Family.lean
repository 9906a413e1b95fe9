import PlaceRoute.Mapping.Encoder

/-!
# Constraint families

What makes decisions a mapping, family by family. `Family.generate` builds the formula of a family: a list of terms
and their conjunction. "At most one" packs its literals into a helper word `v` and asks for `v &&& (v - 1) = 0`.
-/

namespace PlaceRoute

open PlaceRoute.Sat (Literal)
open Encoder (build checked bit)

/-- A family of constraints on mappings. -/
inductive Family where
  /-- Every operation is placed: exactly once, or at least once if it may be duplicated. -/
  | opPlacement
  /-- Every unit hosts at most one operation. -/
  | peExclusivity
  /-- Operations stand only on units that support their opcode. -/
  | peLegality
  /-- Every node carries at most one net. -/
  | routeExclusivity
  /-- Nets start where their source operation is placed. -/
  | initValue
  /-- Flows end at the operand ports of the units that host their terminals. -/
  | portPlacement
  /-- A routing node that carries a flow has exactly one driver that carries it. -/
  | inputConnectivity
  /-- A node that carries a flow drives exactly one node that carries it, unless it is an operand port. -/
  | outputConnectivity
  /-- A node carries a net exactly if it carries it to some terminal. -/
  | routingResourceUsage
  deriving DecidableEq, Repr, Inhabited

namespace Family

/-- All families, in the order in which they are usually asserted. -/
def all : List Family :=
  [opPlacement, peExclusivity, peLegality, routeExclusivity, initValue, portPlacement, inputConnectivity,
    outputConnectivity, routingResourceUsage]

/-- The name of a family. -/
def name : Family → String
  | opPlacement => "op_placement"
  | peExclusivity => "pe_exclusivity"
  | peLegality => "pe_legality"
  | routeExclusivity => "route_exclusivity"
  | initValue => "init_value"
  | portPlacement => "port_placement"
  | inputConnectivity => "input_connectivity"
  | outputConnectivity => "output_connectivity"
  | routingResourceUsage => "routing_resource_usage"

/-- The condition that at most one of the literals holds, or exactly one if `strict`, and the terms that pin the
helper word it speaks about. -/
def oneHot (bits : List Literal) (strict : Bool) : EncodeM (List Literal × Literal) := do
  if bits.isEmpty then pure ([], Solver.ofBool !strict)
  else
    let packed ← Encoder.anonymous bits.length
    let pins ← build (Solver.zipBits Solver.iff packed bits)
    let less ← checked (Solver.subWord packed (Solver.constWord bits.length 1))
    let masked ← checked (Solver.andWord packed less)
    let atMostOne ← build (Solver.isZero masked)
    if strict then
      let none ← build (Solver.isZero packed)
      let exactlyOne ← build (Solver.and atMostOne (-none))
      pure (pins, exactlyOne)
    else pure (pins, atMostOne)

/-- The terms of `oneHot`, the condition last. -/
def oneHotTerms (bits : List Literal) (strict : Bool) : EncodeM (List Literal) := do
  let (pins, condition) ← oneHot bits strict
  pure (pins ++ [condition])

/-- The terms for each item of a list, one after the other. -/
def termsFor {α : Type} (items : List α) (terms : α → EncodeM (List Literal)) : EncodeM (List Literal) := do
  return (← items.mapM terms).flatten

section
variable (g : Graph) (d : Design)

/-- Whether a unit supports an operation. -/
def supports (unit : NodeId) (op : Operation) : Bool := (g.node? unit).any (·.supports op.opcode)

/-- One term for each operation: it stands on exactly one unit, or on at least one if it may be duplicated. -/
def opPlacementTerms : EncodeM (List Literal) :=
  termsFor d.operations fun op => do
    let bits ← g.units.mapM fun u => bit (.place u op.id)
    if op.duplicate then
      let placed ← build (Solver.orAll bits)
      pure [placed]
    else oneHotTerms bits true

/-- Terms by which each unit hosts at most one operation. -/
def peExclusivityTerms : EncodeM (List Literal) :=
  termsFor g.units fun u => do
    let bits ← d.operations.mapM fun op => bit (.place u op.id)
    oneHotTerms bits false

/-- A term for each unit and operation that it does not support: the operation is not there. -/
def peLegalityTerms : EncodeM (List Literal) :=
  termsFor g.units fun u => termsFor d.operations fun op => do
    if supports g u op then pure []
    else
      let place ← bit (.place u op.id)
      pure [-place]

/-- Terms by which each node carries at most one value. -/
def routeExclusivityTerms : EncodeM (List Literal) :=
  termsFor g.ids fun n => do
    let bits ← d.values.mapM fun v => bit (.route n v.id)
    oneHotTerms bits false

/-- A term for each node and value: the node carries the value exactly when it carries one of its flows. -/
def routingResourceUsageTerms : EncodeM (List Literal) :=
  termsFor g.ids fun n => termsFor d.values fun v => do
    let route ← bit (.route n v.id)
    let flows ← v.dsts.mapM fun t => bit (.routeTo n v.id t)
    let any ← build (Solver.orAll flows)
    let same ← build (Solver.iff route any)
    pure [same]

/-- On a unit that cannot run the source nothing of the net is carried. Elsewhere the placement of a source that may
be duplicated decides the net, and that of another source every flow. -/
def initValueTerms : EncodeM (List Literal) :=
  termsFor g.units fun u => termsFor d.operations fun op => do
    match op.output.bind d.value? with
    | none => pure []
    | some v =>
      if !supports g u op then
        let route ← bit (.route u v.id)
        let flows ← v.dsts.mapM fun t => bit (.routeTo u v.id t)
        pure ((route :: flows).map fun l => -l)
      else
        let place ← bit (.place u op.id)
        if op.duplicate then
          let route ← bit (.route u v.id)
          let same ← build (Solver.iff route place)
          pure [same]
        else
          v.dsts.mapM fun t => do
            let flow ← bit (.routeTo u v.id t)
            build (Solver.iff flow place)

/-- The terms for one operand of an operation on a unit: its flow is off on the ports of other operands, and on its
own port it is the placement. Without such a port a supporting unit cannot host the operation. -/
def operandTerms (u : NodeId) (op : Operation) (place : Literal) (operand : Nat) (value : ValueId) :
    EncodeM (List Literal) := do
  let terminal : Terminal := ⟨op.id, operand⟩
  if !(d.value? value).any (fun v => decide (terminal ∈ v.dsts)) then throw (.unlistedTerminal value terminal)
  let ports := ((g.node? u).map (·.operands)).getD ∅
  let strays ← (ports.toList.filter fun (other, _) => other ≠ operand).mapM fun (_, port) => do
    let stray ← bit (.routeTo port value terminal)
    pure (-stray)
  match ports.get? operand with
  | none => pure (if supports g u op then strays ++ [-place] else strays)
  | some port =>
    let flow ← bit (.routeTo port value terminal)
    if supports g u op then
      let same ← build (Solver.iff flow place)
      pure (strays ++ [same])
    else pure (strays ++ [-flow])

/-- The terms for every operand of every operation on every unit. -/
def portPlacementTerms : EncodeM (List Literal) :=
  termsFor g.units fun u => termsFor d.operations fun op => do
    let place ← bit (.place u op.id)
    termsFor op.inputs.toList fun (operand, value) => operandTerms g d u op place operand value

/-- The terms by which each of the nodes that carries a flow has exactly one neighbour that carries it. -/
def connectivityTerms (nodes : List NodeId) (neighbours : NodeId → List NodeId) : EncodeM (List Literal) :=
  termsFor nodes fun n => termsFor d.flows fun (v, t) => do
    let flow ← bit (.routeTo n v t)
    let bits ← (neighbours n).mapM fun m => bit (.routeTo m v t)
    let (pins, exactlyOne) ← oneHot bits true
    let term ← build (Solver.implies flow exactlyOne)
    pure (pins ++ [term])

/-- The nodes that a flow goes on from. -/
def throughNodes : List NodeId := (g.nodes.toList.filter fun n => !n.isOperandPort).map (·.id)

/-- The terms of a family. -/
def terms : Family → EncodeM (List Literal)
  | opPlacement => opPlacementTerms g d
  | peExclusivity => peExclusivityTerms g d
  | peLegality => peLegalityTerms g d
  | routeExclusivity => routeExclusivityTerms g d
  | initValue => initValueTerms g d
  | portPlacement => portPlacementTerms g d
  | inputConnectivity => connectivityTerms d g.routing g.fanin
  | outputConnectivity => connectivityTerms d (throughNodes g) g.fanout
  | routingResourceUsage => routingResourceUsageTerms g d

/-- The formula of a family. -/
def generate (family : Family) : EncodeM Literal := do
  let terms ← family.terms g d
  build (Solver.andAll terms)

end
end Family
end PlaceRoute
