/-!
# Diagnostics

Messages for the user, with a severity and a code, and the `Log` that collects them. A `Verbosity` says which are shown.
-/

namespace PlaceRoute

/-- How serious a diagnostic is. -/
inductive Severity where
  /-- Progress of a run. -/
  | note
  /-- The answer is weaker than asked for. -/
  | warning
  /-- There is no mapping, or a wrong one. -/
  | error
  deriving DecidableEq, Repr, Inhabited

namespace Severity

/-- Severities by weight. -/
def weight : Severity → Nat
  | note => 0
  | warning => 1
  | error => 2

/-- The word for a severity. -/
def word : Severity → String
  | note => "note"
  | warning => "warning"
  | error => "error"

end Severity

/-- How much a user wants to see. -/
inductive Verbosity where
  /-- Errors. -/
  | quiet
  /-- Errors and warnings. -/
  | normal
  /-- Everything. -/
  | verbose
  deriving DecidableEq, Repr, Inhabited

namespace Verbosity

/-- The level asked for by two switches; the first one wins. -/
def ofFlags (quiet verbose : Bool) : Verbosity := if quiet then .quiet else if verbose then .verbose else .normal

/-- The least severity that is shown. -/
def threshold : Verbosity → Severity
  | quiet => .error
  | normal => .warning
  | verbose => .note

/-- Whether diagnostics of a severity are shown. -/
def shows (v : Verbosity) (s : Severity) : Bool := decide (v.threshold.weight ≤ s.weight)

end Verbosity

/-- What a diagnostic is about. -/
inductive Category where
  | input
  | placement
  | routing
  | solver
  deriving DecidableEq, Repr, Inhabited

/-- The letter of a category. -/
def Category.letter : Category → Char
  | input => 'E'
  | placement => 'P'
  | routing => 'R'
  | solver => 'S'

/-- The code of a kind of diagnostic. -/
structure DiagnosticCode where
  category : Category
  number : Nat
  deriving DecidableEq, Repr, Inhabited

/-- A code as its letter and at least three digits. -/
def DiagnosticCode.text (c : DiagnosticCode) : String :=
  let digits := toString c.number
  c.category.letter.toString ++ "".pushn '0' (3 - digits.length) ++ digits

/-- A message for the user. -/
structure Diagnostic where
  severity : Severity
  code : DiagnosticCode
  message : String
  /-- What the message is about. -/
  subject : Option String := none
  notes : List String := []
  /-- What the user can do. -/
  help : List String := []
  deriving DecidableEq, Repr, Inhabited

/-- The diagnostics of a run so far. -/
structure Log where
  /-- Those that were not taken, in order. -/
  diagnostics : List Diagnostic
  /-- How many errors there were, taken or not. -/
  errorCount : Nat
  deriving DecidableEq, Repr, Inhabited

namespace Log

/-- The log without diagnostics. -/
def empty : Log := ⟨[], 0⟩

/-- Adds a diagnostic. -/
def emit (l : Log) (d : Diagnostic) : Log :=
  ⟨l.diagnostics ++ [d], if d.severity = .error then l.errorCount + 1 else l.errorCount⟩

/-- Whether there was an error. -/
def hasErrors (l : Log) : Bool := decide (0 < l.errorCount)

/-- Takes all diagnostics out. -/
def takeAll (l : Log) : List Diagnostic × Log := (l.diagnostics, { l with diagnostics := [] })

end Log
end PlaceRoute
