import PlaceRoute.CommandLine.Command
import PlaceRoute.Diagnostic.Render
import PlaceRoute.Dot.Netlist
import PlaceRoute.Fabric.Json
import PlaceRoute.Graph.Build
import PlaceRoute.Json.Export
import PlaceRoute.Report
import PlaceRoute.Settings.Reader

/-!
# Running commands

`Command.run` is what a command writes and its exit code, as a function of the contents of the files.
-/

namespace PlaceRoute
namespace CommandLine

open PlaceRoute.Sat (Engine)

/-- What a run leaves behind. -/
structure Output where
  code : Nat
  stdout : String
  stderr : String
  deriving DecidableEq, Repr, Inhabited

/-- What a command runs in. -/
structure Environment where
  engine : Engine
  /-- The contents of the files that can be read. -/
  file? : String → Option String
  /-- Whether the terminal takes colours. -/
  colours : Bool

/-- Reasons why a command fails. -/
inductive Failure where
  | unreadableSettings
  | settings (e : Settings.LoadError)
  | unreadableNetlist
  | design (e : Design.LoadError)
  | unreadableFabric
  | fabric (e : Fabric.LoadError)
  | graph (e : Graph.BuildError)
  | session (e : SessionError)

namespace Failure

/-- The text of a failure. -/
def message : Failure → String
  | unreadableSettings => "error: failed to read configuration: no such file"
  | settings e => "error: " ++ e.message
  | unreadableNetlist => "error: failed to read netlist: no such file"
  | design e => "error: " ++ e.message
  | unreadableFabric => "error: failed to read fabric: no such file"
  | fabric .malformed => "error: failed to parse fabric: no fabric"
  | fabric (.invalid e) => "error: " ++ e.message
  | graph e => "internal error: " ++ e.message
  | session e => "internal error: " ++ e.message

/-- The exit code of a failure: one for the user's, two for the program's. -/
def code : Failure → Nat
  | graph _ => 2
  | session _ => 2
  | _ => 1

/-- The output of a failure, after what was written before. -/
def output (f : Failure) (stderr : String) : Output := ⟨f.code, "", stderr ++ f.message ++ "\n"⟩

end Failure

/-- The settings of a command before its options change them. -/
def loadSettings (env : Environment) (path : Option String) : Except Failure Settings :=
  match path with
  | none => .ok {}
  | some path =>
    match env.file? path with
    | none => .error .unreadableSettings
    | some text => (Settings.load text).mapError .settings

/-- The design and the fabric of a command. -/
def loadInputs (env : Environment) (i : Inputs) (s : Settings) : Except Failure (Design × Fabric) := do
  let some netlist := env.file? i.design | throw .unreadableNetlist
  let design ← (Design.ofDot netlist (.ofList s.duplicateOpcodes)).mapError .design
  let some description := env.file? i.fabric | throw .unreadableFabric
  let fabric ← (Fabric.load description).mapError .fabric
  pure (design, fabric)

/-- What a command works on. -/
structure Job where
  settings : Settings
  problem : Problem

/-- Reads all that a command needs. -/
def prepare (env : Environment) (c : Command) : Except Failure Job := do
  let settings := c.action.apply (← loadSettings env c.inputs.config)
  settings.validate.mapError fun e => .settings (.invalid e)
  let (design, fabric) ← loadInputs env c.inputs settings
  let graph ← (Graph.build fabric settings.graph).mapError .graph
  pure ⟨settings, graph, design, env.engine⟩

/-- A count of the design and the graph. -/
def countText (d : Design) (s : Graph.Stats) : String :=
  s!"design: {d.operations.length} operations, {d.values.length} nets\n" ++
  s!"mrrg: {s.contexts} contexts, {s.functionalUnits} units, {s.muxes} muxes, {s.registers} registers, " ++
  s!"{s.operandPorts} operand ports, {s.ties} ties, {s.edges} edges\n"

/-- A count of the design and the graph as JSON. -/
def countJson (d : Design) (s : Graph.Stats) : Json :=
  .obj [("operations", .nat d.operations.length), ("values", .nat d.values.length), ("mrrg", s.toJson)]

/-- The output of a count. -/
def count (o : CountOptions) (j : Job) : Output :=
  let d := j.problem.design
  let stats := j.problem.graph.stats
  match o.format with
  | .text => ⟨0, countText d stats, ""⟩
  | .json => ⟨0, (countJson d stats).pretty ++ "\n", ""⟩

/-- The line before the work begins. -/
def headline (p : Problem) : String :=
  let stats := p.graph.stats
  s!"   Mapping {p.design.operations.length} operations onto {stats.functionalUnits} units " ++
  s!"({stats.contexts} contexts, {p.graph.routing.length} routing nodes)\n"

/-- The diagnostics that the user wants to see. -/
def logText (env : Environment) (global : GlobalOptions) (format : Format) (log : Log) : String :=
  let verbosity := Verbosity.ofFlags global.quiet global.verbose
  let colour := match global.colour with
    | .auto => env.colours
    | .always => true
    | .never => false
  let write (d : Diagnostic) : String := match format with
    | .text => d.render colour
    | .json => d.toJson.compact ++ "\n"
  String.join ((log.diagnostics.filter fun d => verbosity.shows d.severity).map write)

/-- The verdict of a run. -/
def verdict (o : Outcome) : String := if o.solution.isSome then "SAT" else "UNSAT"

/-- The result of a run as JSON. -/
def resultJson (o : Outcome) (report : Option Report) (s : Session) (time : Bool) : Json :=
  .obj ([("verdict", .str (verdict o)), ("feasibility", o.feasibility.toJson)] ++
    (report.toList.map fun r => ("solution", r.toJson)) ++ [("solver_calls", .nat s.calls)] ++
    if time then [("timings", (Timings.ofSession s).toJson)] else [])

/-- The result of a run as text, and the line about its time. -/
def resultText (quiet : Bool) (o : Outcome) (report : Option Report) (s : Session) (time : Bool) : String × String :=
  let lines := if quiet then "" else String.join (report.toList.map fun r => r.text ++ "\n")
  let timing := if time then s!"   Time: {(Timings.ofSession s).text} ({s.calls} solver calls)\n" else ""
  (verdict o ++ "\n" ++ lines, timing)

/-- The output of a run that came to an end. -/
def finished (global : GlobalOptions) (o : PlaceOptions) (stderr : String) (p : Problem) (outcome : Outcome)
    (s : Session) : Output :=
  let report := Report.ofOutcome p.graph p.design outcome
  let code := if outcome.solution.isSome then 0 else 1
  match o.format with
  | .text =>
    let (text, timing) := resultText global.quiet outcome report s o.time
    ⟨code, text, stderr ++ timing⟩
  | .json => ⟨code, (resultJson outcome report s o.time).pretty ++ "\n", stderr⟩

/-- Places and routes the design. Where the program breaks off, no diagnostic is written; what the system writes then is left
out. -/
def place (env : Environment) (global : GlobalOptions) (o : PlaceOptions) (j : Job) : Timed Output := do
  let head := if global.quiet || o.format matches .json then "" else headline j.problem
  let (result, s) ← (Session.placeAndRoute j.problem j.settings.optimize).run {}
  let stderr := head ++ logText env global o.format s.log
  match result with
  | .error (.error e) => pure ((Failure.session e).output stderr)
  | .error .brokenOff => pure ⟨101, "", head⟩
  | .ok outcome => pure (finished global o stderr j.problem outcome s)

/-- Runs a command. -/
def Command.run (env : Environment) (c : Command) : Timed Output :=
  match prepare env c with
  | .error f => pure (f.output "")
  | .ok job =>
    match c.action with
    | .place o => place env c.global o job
    | .count o => pure (count o job)

/-- The files that a command reads. -/
def Command.files (c : Command) : List String := c.inputs.config.toList ++ [c.inputs.design, c.inputs.fabric]

/-- How to use the program. -/
def usage : String :=
  "Usage: spnr [OPTIONS] <COMMAND>\n\n" ++
  "Commands:\n" ++
  "  place <DESIGN> <FABRIC>  Place and route a design onto a fabric\n" ++
  "  parse <DESIGN> <FABRIC>  Load a design and a fabric and print statistics\n" ++
  "  help                     Print this text\n\n" ++
  "Options:\n" ++
  "  -q, --quiet              Suppress everything but errors and the verdict\n" ++
  "  -v, --verbose            Also show progress notes\n" ++
  "      --color <WHEN>       auto, always or never\n" ++
  "      --config <CONFIG>    Path to a configuration file\n" ++
  "  -h, --help               Print this text\n" ++
  "  -V, --version            Print the version\n\n" ++
  "Options of place and parse:\n" ++
  "      --contexts <N>       Number of contexts\n" ++
  "  -f, --format <FORMAT>    text or json\n\n" ++
  "Options of place:\n" ++
  "      --optimize           Minimize routing resources after the first solution\n" ++
  "      --objective <CLASS>  mux, mux-register or routing\n" ++
  "      --encoding <KIND>    ite, zero-extend, bit-hack or shannon\n" ++
  "      --incremental        Probe bounds on one solver\n" ++
  "      --cutoff <FRACTION>  Stop once the relative gap drops to this fraction\n" ++
  "      --freeze-placement   Pin placement at the first cutoff\n" ++
  "      --duplicate <OPCODE> Opcodes whose operations may be duplicated\n" ++
  "      --duplicate-const    Shorthand for --duplicate const\n" ++
  "      --time               Print build and solve times\n"

/-- The output when no command is run. -/
def Stop.output : Stop → Output
  | usage => ⟨2, "", CommandLine.usage⟩
  | help => ⟨0, CommandLine.usage, ""⟩
  | version => ⟨0, "spnr 0.1.0\n", ""⟩

end CommandLine
end PlaceRoute
