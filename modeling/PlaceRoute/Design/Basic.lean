import PlaceRoute.Sorted.Map

/-!
# Dataflow designs

A `Design` is a program graph: operations, and values that carry an operation's result to operands of others.
`Design.new` assembles one from named operations and ties. Operations are numbered by name and values by the name of
their source, so the result does not depend on the order of the ties.
-/

namespace PlaceRoute

/-- The number of an operation. -/
abbrev OpId := Nat

/-- The number of a value. -/
abbrev ValueId := Nat

/-- An operand of an operation, as the destination of a value. -/
structure Terminal where
  op : OpId
  operand : Nat
  deriving DecidableEq, Repr, Inhabited

namespace Terminal

/-- The text of a terminal with the names of its parts. -/
def verbose (t : Terminal) : String := s!"Terminal \x7b op: OpId({t.op}), operand: {t.operand} \x7d"

instance : Ord Terminal := ⟨compareLex (compareOn op) (compareOn operand)⟩

instance : Std.TransOrd Terminal := inferInstanceAs (Std.TransCmp (compareLex (compareOn op) (compareOn operand)))

instance : Std.LawfulEqOrd Terminal where
  eq_of_compare {a b} h := by
    obtain ⟨ho, hi⟩ := compareLex_eq_eq.mp h
    cases a; cases b
    cases Std.LawfulEqOrd.eq_of_compare (α := Nat) ho
    cases Std.LawfulEqOrd.eq_of_compare (α := Nat) hi
    rfl

end Terminal

/-- A dataflow operation. -/
structure Operation where
  id : OpId
  name : String
  /-- What a functional unit must support to host the operation. -/
  opcode : String
  /-- Whether the operation may be placed on several units at once. -/
  duplicate : Bool
  /-- The value that the operation produces, if anything consumes it. -/
  output : Option ValueId
  /-- The value at each operand. -/
  inputs : SortedMap Nat ValueId
  deriving DecidableEq

/-- A net: the result of one operation and the operands that it goes to. -/
structure Value where
  id : ValueId
  src : OpId
  /-- The destinations in order. -/
  dsts : List Terminal
  deriving DecidableEq, Repr, Inhabited

/-- A program graph; operations and values stand at the index that is their number. -/
structure Design where
  operations : List Operation
  values : List Value
  deriving DecidableEq, Inhabited

/-- A named connection from an operation to an operand of another. -/
structure NamedTie where
  src : String
  dst : String
  operand : Nat
  deriving DecidableEq, Repr

namespace Design

/-- Reasons why operations and ties form no design. -/
inductive Error where
  | unknownOperation (name : String)
  | operandBoundTwice (op : String) (operand : Nat)
  deriving DecidableEq, Repr

/-- The text of a refusal. -/
def Error.message : Error → String
  | unknownOperation name => s!"unknown operation '{name}'"
  | operandBoundTwice op operand => s!"operand {operand} of '{op}' is driven more than once"

/-- The ties read so far, by source and by destination. -/
structure Wiring where
  fanout : SortedMap OpId (SortedSet Terminal)
  drivers : SortedMap Terminal OpId

/-- The number of a named operation. -/
def Wiring.find (names : List String) (name : String) : Except Error OpId :=
  match names.idxOf? name with
  | some id => .ok id
  | none => .error (.unknownOperation name)

/-- Adds a tie, unless its operand has another source already. -/
def Wiring.add (names : List String) (w : Wiring) (tie : NamedTie) : Except Error Wiring := do
  let src ← find names tie.src
  let dst ← find names tie.dst
  let terminal : Terminal := ⟨dst, tie.operand⟩
  match w.drivers.get? terminal with
  | some other => if other ≠ src then throw (.operandBoundTwice tie.dst tie.operand)
  | none => pure ()
  pure {
    fanout := w.fanout.alter src fun dsts => (dsts.getD ∅).insert terminal
    drivers := w.drivers.insert terminal src }

/-- One value for each operation that has destinations. -/
def Wiring.values (w : Wiring) : List Value :=
  w.fanout.toList.zipIdx.map fun ((src, dsts), id) => ⟨id, src, dsts.toList⟩

/-- The operand and value of each destination at an operation. -/
def inputsOf (values : List Value) (op : OpId) : SortedMap Nat ValueId :=
  SortedMap.ofList (values.flatMap fun v => (v.dsts.filter (·.op = op)).map fun t => (t.operand, v.id))

/-- The design of named operations with their opcodes, and ties. Equal ties count once, and operations whose opcode
is in `duplicates` may be placed several times. -/
def new (operations : SortedMap String String) (ties : List NamedTie) (duplicates : SortedSet String) :
    Except Error Design := do
  let wiring ← ties.foldlM (Wiring.add operations.keys) ⟨∅, ∅⟩
  let values := wiring.values
  let operation (id : OpId) (name opcode : String) : Operation := {
    id := id
    name := name
    opcode := opcode
    duplicate := opcode ∈ duplicates
    output := (values.find? (·.src = id)).map (·.id)
    inputs := inputsOf values id }
  pure ⟨operations.toList.zipIdx.map fun ((name, opcode), id) => operation id name opcode, values⟩

/-- The operation with a number. -/
def op? (d : Design) (id : OpId) : Option Operation := d.operations[id]?

/-- The value with a number. -/
def value? (d : Design) (id : ValueId) : Option Value := d.values[id]?

/-- The operation with a name, in a list that is in the order of names: the middle one, or one of the half that it
would have to stand in. -/
def searchName (name : String) (ops : List Operation) : Option Operation :=
  if h : ops = [] then none
  else
    have hpos := List.length_pos_iff.mpr h
    have hmiddle : ops.length / 2 < ops.length := Nat.div_lt_self hpos Nat.one_lt_two
    let middle := ops[ops.length / 2]
    match compare name middle.name with
    | .lt => searchName name (ops.take (ops.length / 2))
    | .eq => some middle
    | .gt => searchName name (ops.drop (ops.length / 2 + 1))
  termination_by ops.length
  decreasing_by
    · exact Nat.lt_of_le_of_lt (List.length_take_le _ _) hmiddle
    · rw [List.length_drop]
      exact Nat.sub_lt hpos (Nat.succ_pos _)

/-- The operation with a name. -/
def opByName? (d : Design) (name : String) : Option Operation := searchName name d.operations

/-- The number of operations of each opcode. -/
def opcodeCounts (d : Design) : SortedMap String Nat :=
  d.operations.foldl (fun counts op => counts.alter op.opcode fun n => n.getD 0 + 1) ∅

end Design
end PlaceRoute
