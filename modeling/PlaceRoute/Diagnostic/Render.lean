import PlaceRoute.Diagnostic.Basic
import PlaceRoute.Json.Record

/-!
# Printed diagnostics

A diagnostic for a terminal, with or without colour, and as JSON, which `Diagnostic.ofJson?` reads.
-/

namespace PlaceRoute

/-- The colour of a severity on a terminal. -/
def Severity.colour : Severity → String
  | note => "36"
  | warning => "33"
  | error => "31"

/-- The severity at the head of a diagnostic. -/
def Severity.header (colour : Bool) (s : Severity) : String :=
  if colour then s!"\x1b[1;{s.colour}m{s.word}\x1b[0m" else s.word

/-- The name of a severity in data. -/
def Severity.name : Severity → String
  | note => "Note"
  | warning => "Warning"
  | error => "Error"

/-- The name of a category in data. -/
def Category.name : Category → String
  | input => "Input"
  | placement => "Placement"
  | routing => "Routing"
  | solver => "Solver"

namespace Diagnostic

/-- A diagnostic for a terminal: a line with severity, code and message, and a line for each detail. -/
def render (colour : Bool) (d : Diagnostic) : String :=
  s!"{d.severity.header colour}[{d.code.text}]: {d.message}\n" ++
    String.join (d.subject.toList.map fun s => s!"  --> {s}\n") ++
    String.join (d.notes.map fun s => s!"   = note: {s}\n") ++
    String.join (d.help.map fun s => s!"   = help: {s}\n")

/-- A diagnostic as JSON. -/
def toJson (d : Diagnostic) : Json :=
  .obj [("severity", .str d.severity.name),
    ("code", .obj [("category", .str d.code.category.name), ("number", .nat d.code.number)]),
    ("message", .str d.message), ("subject", (d.subject.map .str).getD .null),
    ("notes", .arr (d.notes.map .str)), ("help", .arr (d.help.map .str))]

end Diagnostic

/-- The severity in a document. -/
def Severity.ofJson? (j : Json) : Option Severity :=
  j.choice? ([.note, .warning, .error].map fun s => (s.name, s))

/-- The category in a document. -/
def Category.ofJson? (j : Json) : Option Category :=
  j.choice? ([.input, .placement, .routing, .solver].map fun c => (c.name, c))

/-- The code in a document. -/
def DiagnosticCode.ofJson? (j : Json) : Option DiagnosticCode := do
  match ← j.record? ["category", "number"] with
  | [some category, some number] => some ⟨← Category.ofJson? category, ← number.nat32?⟩
  | _ => none

/-- The diagnostic in a document. -/
def Diagnostic.ofJson? (j : Json) : Option Diagnostic := do
  match ← j.record? ["severity", "code", "message", "subject", "notes", "help"] with
  | [some severity, some code, some message, subject, some notes, some help] =>
    some {
      severity := ← Severity.ofJson? severity
      code := ← DiagnosticCode.ofJson? code
      message := ← message.string?
      subject := ← (subject.getD .null).orNull? Json.string?
      notes := ← notes.list? Json.string?
      help := ← help.list? Json.string? }
  | _ => none

end PlaceRoute
