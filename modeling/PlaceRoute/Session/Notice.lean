import PlaceRoute.Diagnostic.Basic
import PlaceRoute.Mapping.Check

/-!
# What a session reports

The events of a session that a user is told of, each with its diagnostic.
-/

namespace PlaceRoute

/-- Reasons to stop a search before its bounds meet. -/
inductive StopReason where
  | cutoff
  | iterations
  | time
  deriving DecidableEq, Repr, Inhabited

/-- The text of a reason. -/
def StopReason.text : StopReason → String
  | cutoff => "cutoff reached"
  | iterations => "iteration budget spent"
  | time => "time budget spent"

/-- An event of a session. -/
inductive Notice where
  /-- More operations need an opcode than units support it. -/
  | tooFewUnits (opcode : String) (demand supply : Nat)
  /-- The score of the first model. -/
  | firstModel (score counted : Nat)
  /-- A step of the search, and the bounds after it. -/
  | probed (bound : Nat) (sat : Bool) (floor upper : Nat)
  | stopped (floor upper : Nat) (reason : StopReason)
  | frozen (lower upper : Nat)
  | freezeWithoutCutoff
  /-- A model of the solver is no mapping. -/
  | rejected (reason : CheckError)
  deriving DecidableEq, Repr

/-- The diagnostic of an event. -/
def Notice.diagnostic : Notice → Diagnostic
  | tooFewUnits opcode demand supply => {
      severity := .error
      code := ⟨.placement, 101⟩
      message := s!"{demand} operations need opcode \x60{opcode}\x60 but only {supply} units support it"
      subject := some opcode
      help := ["add units supporting this opcode or use more contexts"] }
  | firstModel score counted => {
      severity := .note
      code := ⟨.solver, 201⟩
      message := s!"initial solution uses {score} of {counted} counted nodes" }
  | probed bound sat floor upper =>
    let verdict := if sat then "sat" else "unsat"
    { severity := .note
      code := ⟨.solver, 202⟩
      message := s!"probe at most {bound}: {verdict}, bounds now [{floor}, {upper}]" }
  | stopped floor upper reason => {
      severity := .warning
      code := ⟨.solver, 203⟩
      message := s!"optimization stopped with bounds [{floor}, {upper}]: " ++ reason.text }
  | frozen lower upper => {
      severity := .note
      code := ⟨.solver, 204⟩
      message := s!"placement frozen at bounds [{lower}, {upper}]; " ++
        "later lower bounds hold for this placement only" }
  | freezeWithoutCutoff => {
      severity := .warning
      code := ⟨.solver, 205⟩
      message := "placement freezing has no effect without a cutoff"
      help := ["set \x60optimize.cutoff\x60"] }
  | rejected reason => {
      severity := .error
      code := ⟨.routing, 301⟩
      message := "solver model is not a legal mapping: " ++ reason.message }

end PlaceRoute
