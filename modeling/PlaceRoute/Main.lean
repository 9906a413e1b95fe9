import PlaceRoute.CommandLine.Run
import PlaceRoute.Sat.Search

/-!
# The program

Reads the arguments, the environment and the files, runs the command and writes its output.
-/

namespace PlaceRoute
namespace CommandLine

/-- Runs a program against the system's clock. -/
def perform {α : Type} : Timed α → IO α
  | .done a => pure a
  | .ask next => do perform (next (← IO.monoNanosNow))

/-- The text of a file, if it can be read. -/
def readFile? (path : String) : IO (Option String) := do
  try return some (← IO.FS.readFile path)
  catch _ => return none

/-- Whether the terminal takes colours. -/
def takesColours : IO Bool := do
  return (← IO.getEnv "NO_COLOR").isNone && (← IO.getEnv "TERM").isSome

/-- Writes an output and returns its exit code. -/
def write (o : Output) : IO UInt32 := do
  IO.eprint o.stderr
  IO.print o.stdout
  return o.code.toUInt32

/-- Runs the command that some arguments ask for. -/
def runArguments (args : List String) : IO UInt32 := do
  match Command.ofArguments args with
  | .error stop => write stop.output
  | .ok command =>
    let texts ← command.files.mapM fun path => do return (path, ← readFile? path)
    let env : Environment := ⟨Sat.conflictDriven, fun path => (texts.lookup path).join, ← takesColours⟩
    write (← perform (command.run env))

end CommandLine
end PlaceRoute

def main (args : List String) : IO UInt32 := PlaceRoute.CommandLine.runArguments args
