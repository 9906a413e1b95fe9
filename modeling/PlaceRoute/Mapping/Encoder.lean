import PlaceRoute.Mapping.Key
import PlaceRoute.Solver.Scope

/-!
# Decisions as solver variables

A `Store` keeps the word that a solver holds for each key. An `Encoder` is a solver with its store; encoding steps
run in `EncodeM`, where a failing step keeps what was built before it. `declareAll` declares every decision about
mapping a design onto a graph.
-/

namespace PlaceRoute

open PlaceRoute.Sat (Literal)

/-- The variables declared in a solver. -/
structure Store where
  vars : Std.TreeMap Key Word
  /-- The number of helper words without a key. -/
  anonymous : Nat
  deriving Inhabited

/-- Reasons why an encoding step fails. -/
inductive EncodeError where
  | declaredTwice (key : Key)
  | undeclared (key : Key)
  | notOneBit (key : Key) (width : Nat)
  | unlistedTerminal (value : ValueId) (terminal : Terminal)
  | solver (e : Solver.Error)
  deriving DecidableEq, Repr

/-- The text of a failure. -/
def EncodeError.message : EncodeError → String
  | declaredTwice key => s!"variable {key.text} declared twice"
  | undeclared key => s!"variable {key.text} was never declared"
  | notOneBit key width => s!"variable {key.text} is {width} bits wide, not 1"
  | unlistedTerminal value t => s!"value {value} does not list terminal {t.verbose}"
  | solver e => e.message

namespace Store

/-- The store without variables. -/
def empty : Store := ⟨∅, 0⟩

/-- The number of declared keys. -/
def size (s : Store) : Nat := s.vars.size

/-- Whether nothing is declared. -/
def isEmpty (s : Store) : Bool := s.vars.isEmpty

/-- The declared keys in order. -/
def keys (s : Store) : List Key := s.vars.keys

/-- The word declared for a key. -/
def lookup (s : Store) (k : Key) : Except EncodeError Word :=
  match s.vars[k]? with
  | some w => .ok w
  | none => .error (.undeclared k)

/-- The literal declared for a decision. -/
def bit (s : Store) (k : Key) : Except EncodeError Literal := do
  match ← s.lookup k with
  | [l] => pure l
  | w => throw (.notOneBit k w.width)

/-- The values of all declared keys in the solver's model. -/
def extract (s : Store) (solver : Solver) : Except EncodeError Model := do
  let read (entry : Key × Word) : Except Solver.Error (Key × Nat) := do
    return (entry.1, ← solver.wordValue entry.2)
  let values ← (s.vars.toList.mapM read).mapError .solver
  pure (.ofList values)

end Store

/-- A solver and the variables declared in it. -/
structure Encoder where
  solver : Solver
  store : Store
  deriving Inhabited

/-- Encoding steps. -/
abbrev EncodeM := ExceptT EncodeError (StateM Encoder)

namespace Encoder

/-- The encoder in which nothing is declared. -/
def new : Encoder := ⟨.new, .empty⟩

/-- Runs solver steps. -/
def build {α : Type} (m : SolverM α) : EncodeM α :=
  ExceptT.lift (modifyGet fun e =>
    let (a, solver) := m.run e.solver
    (a, { e with solver }))

/-- Runs solver steps that may fail. -/
def checked {α : Type} (m : CheckedM α) : EncodeM α := do
  match ← build m.run with
  | .ok a => pure a
  | .error e => throw (.solver e)

/-- Declares a word of some width for a key. -/
def declare (k : Key) (width : Nat) : EncodeM Word := do
  if (← get).store.vars.contains k then throw (.declaredTwice k)
  let w ← build (Solver.freshWord width)
  modify fun e => { e with store := { e.store with vars := e.store.vars.insert k w } }
  pure w

/-- A helper word without a key. -/
def anonymous (width : Nat) : EncodeM Word := do
  modify fun e => { e with store := { e.store with anonymous := e.store.anonymous + 1 } }
  build (Solver.freshWord width)

/-- The word declared for a key. -/
def lookup (k : Key) : EncodeM Word := do
  match (← get).store.lookup k with
  | .ok w => pure w
  | .error e => throw e

/-- The literal declared for a decision. -/
def bit (k : Key) : EncodeM Literal := do
  match (← get).store.bit k with
  | .ok l => pure l
  | .error e => throw e

/-- Asserts a term. -/
def assert (b : Literal) : EncodeM Unit := build (Solver.assert b)

end Encoder

/-- The flows of a design: each value with each of its terminals. -/
def Design.flows (d : Design) : List (ValueId × Terminal) :=
  d.values.flatMap fun v => v.dsts.map fun t => (v.id, t)

/-- Every decision about mapping a design onto a graph, in the order of declaration. -/
def allKeys (g : Graph) (d : Design) : List Key :=
  (g.units.flatMap fun u => d.operations.map fun op => Key.place u op.id) ++
  (g.ids.flatMap fun n => d.values.flatMap fun v =>
    Key.route n v.id :: v.dsts.map fun t => Key.routeTo n v.id t)

/-- Declares every decision, one bit each. -/
def declareAll (g : Graph) (d : Design) : EncodeM Unit :=
  (allKeys g d).forM fun k => discard (Encoder.declare k 1)

end PlaceRoute
