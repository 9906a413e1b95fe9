import PlaceRoute.Mapping.Family
import PlaceRoute.Mapping.Objective
import PlaceRoute.Session.Notice
import PlaceRoute.Session.Timed

/-!
# Sessions

A session maps one design onto one graph: it holds the encoder, the families asserted so far and the log. A step
that fails leaves the session as it was when it failed.
-/

namespace PlaceRoute

open PlaceRoute.Sat (Engine)

/-- What a session works on. -/
structure Problem where
  graph : Graph
  design : Design
  engine : Engine

/-- Whether the units can hold the operations, by a count for each opcode. -/
inductive Feasibility where
  | feasible
  /-- The first opcode that more operations need than units support. -/
  | infeasible (opcode : String) (demand supply : Nat)
  deriving DecidableEq, Repr, Inhabited

/-- Counts operations and units of each opcode. -/
def Feasibility.of (g : Graph) (d : Design) : Feasibility :=
  let supply (opcode : String) := (g.opcodeSupply.get? opcode).getD 0
  match d.opcodeCounts.toList.find? fun (opcode, demand) => supply opcode < demand with
  | some (opcode, demand) => infeasible opcode demand (supply opcode)
  | none => feasible

/-- Errors that a step of a session returns. -/
inductive SessionError where
  | encode (e : EncodeError)
  /-- A model of the solver is no mapping. -/
  | rejected (e : CheckError)
  /-- A model has no score. -/
  | unscorable (e : CheckError)
  deriving Repr

/-- The text of an error. -/
def SessionError.message : SessionError → String
  | encode e => e.message
  | rejected e => s!"solver model failed verification: {e.message}"
  | unscorable e => Objective.scoreMessage e

/-- Reasons why a step of a session gives no result. -/
inductive Halt where
  /-- The step returns an error. -/
  | error (e : SessionError)
  /-- The step does not return, since the program breaks off. -/
  | brokenOff
  deriving Repr

/-- The state of a session. -/
structure Session where
  encoder : Encoder := .new
  /-- The families asserted so far, in order and each once. -/
  asserted : List Family := []
  /-- The number of solver calls. -/
  calls : Nat := 0
  /-- The time spent on building formulas, in nanoseconds. -/
  buildTime : Nat := 0
  /-- The time spent in the solver, in nanoseconds. -/
  solveTime : Nat := 0
  log : Log := .empty

/-- Steps of a session. -/
abbrev SessionM := ExceptT Halt (StateT Session Timed)

namespace Session

/-- The time. -/
def now : SessionM Nat := ExceptT.lift (StateT.lift Timed.now)

/-- Tells the user of an event. -/
def tell (n : Notice) : SessionM Unit := modify fun s => { s with log := s.log.emit n.diagnostic }

/-- Runs encoding steps and returns their failure, if any. -/
def attempt {α : Type} (m : EncodeM α) : SessionM (Except EncodeError α) := modifyGet fun s =>
  let (result, encoder) := m.run s.encoder
  (result, { s with encoder := encoder })

/-- Goes on with a result, or halts. -/
def ofResult {ε α : Type} (wrap : ε → Halt) : Except ε α → SessionM α
  | .ok a => pure a
  | .error e => throw (wrap e)

/-- Goes on with the result of encoding steps, or returns their error. -/
def ofEncoded {α : Type} : Except EncodeError α → SessionM α := ofResult fun e => .error (.encode e)

/-- Runs encoding steps. -/
def encode {α : Type} (m : EncodeM α) : SessionM α := do ofEncoded (← attempt m)

/-- Runs encoding steps, whose time counts as building. -/
def build {α : Type} (m : EncodeM α) : SessionM α := do
  let start ← now
  let result ← attempt m
  let stop ← now
  modify fun s => { s with buildTime := s.buildTime + (stop - start) }
  ofEncoded result

section
variable (p : Problem)

/-- Checks the units before any solving. -/
def attest : SessionM Feasibility := do
  let verdict := Feasibility.of p.graph p.design
  match verdict with
  | .feasible => pure ()
  | .infeasible opcode demand supply => tell (.tooFewUnits opcode demand supply)
  pure verdict

/-- Declares all decisions. -/
def declare : SessionM Unit := build (declareAll p.graph p.design)

/-- Generates and asserts families. -/
def generate (families : List Family) : EncodeM Unit := families.forM fun family => do
  let formula ← family.generate p.graph p.design
  Encoder.assert formula

/-- Adds to a list the families that are not in it. -/
def addFamilies (asserted families : List Family) : List Family :=
  families.foldl (fun l family => if family ∈ l then l else l ++ [family]) asserted

/-- Asserts families; they count as asserted even if generating them fails. -/
def assertFamilies (families : List Family) : SessionM Unit := do
  let start ← now
  let result ← attempt (generate p families)
  let stop ← now
  modify fun s => { s with
    buildTime := s.buildTime + (stop - start)
    asserted := addFamilies s.asserted families }
  ofEncoded result

/-- Whether everything asserted can hold. -/
def solve : SessionM Bool := do
  modify fun s => { s with calls := s.calls + 1 }
  let start ← now
  let sat ← encode (Encoder.build (Solver.check p.engine))
  let stop ← now
  modify fun s => { s with solveTime := s.solveTime + (stop - start) }
  pure sat

/-- The model of the last call. -/
def extract : SessionM Model := do
  let e := (← get).encoder
  ofEncoded (e.store.extract e.solver)

/-- The model of a call, if there is one. -/
def solveModel : SessionM (Option Model) := do
  if ← solve p then return some (← extract) else return none

/-- Checks a model of the solver, which has to be a mapping. -/
def confirm (m : Model) : SessionM Solution := do
  match m.verify p.graph p.design with
  | .ok solution => pure solution
  | .error e =>
    tell (.rejected e)
    throw (.error (.rejected e))

end
end Session
end PlaceRoute
