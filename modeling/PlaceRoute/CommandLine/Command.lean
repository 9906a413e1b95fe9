import PlaceRoute.CommandLine.Switch
import PlaceRoute.Decimal.Nearest
import PlaceRoute.Settings.Basic

/-!
# Commands

The commands of the program with their switches. `Command.ofArguments` reads one, and `PlaceOptions.apply` changes the
settings as its switches say.
-/

namespace PlaceRoute
namespace CommandLine

/-- When to colour the output. -/
inductive ColourChoice where
  /-- If the terminal takes colours. -/
  | auto
  | always
  | never
  deriving DecidableEq, Repr, Inhabited

/-- The form of the result. -/
inductive Format where
  | text
  | json
  deriving DecidableEq, Repr, Inhabited

/-- The words for colouring. -/
def ColourChoice.words : List (String × ColourChoice) := [("auto", .auto), ("always", .always), ("never", .never)]

/-- The words for forms of the result. -/
def Format.words : List (String × Format) := [("text", .text), ("json", .json)]

/-- The files to read. -/
structure Inputs where
  config : Option String
  design : String
  fabric : String
  deriving DecidableEq, Repr, Inhabited

/-- The options of every command. -/
structure GlobalOptions where
  quiet : Bool
  verbose : Bool
  colour : ColourChoice
  deriving DecidableEq, Repr, Inhabited

/-- The options for placing. -/
structure PlaceOptions where
  contexts : Option Nat
  optimize : Bool
  filter : Option NodeFilter
  encoding : Option PopcountEncoding
  incremental : Bool
  cutoff : Option Float
  freezePlacement : Bool
  duplicates : List String
  format : Format
  /-- Whether to tell how long it took. -/
  time : Bool
  deriving Repr, Inhabited

/-- The options for counting. -/
structure CountOptions where
  contexts : Option Nat
  format : Format
  deriving DecidableEq, Repr, Inhabited

/-- What to do. -/
inductive Action where
  /-- Place and route the design. -/
  | place (o : PlaceOptions)
  /-- Count what the design and the graph hold. -/
  | count (o : CountOptions)
  deriving Repr, Inhabited

/-- A command. -/
structure Command where
  inputs : Inputs
  global : GlobalOptions
  action : Action
  deriving Repr, Inhabited

/-- A number below `2 ^ 32`, with an optional sign. -/
def nat32? (text : String) : Option Nat :=
  let (negative, digits) := Text.splitSign text.toList
  let n := Text.numberOf 10 digits
  if digits.isEmpty ∨ !digits.all Char.isDigit ∨ (negative ∧ n ≠ 0) ∨ UInt32.size ≤ n then none else some n

/-- The choice that a word stands for. -/
def choice? {α : Type} (words : List (String × α)) (text : String) : Option α := words.lookup text

/-- Whether a text is one of some words. -/
def isWord {α : Type} (words : List (String × α)) (text : String) : Bool := (choice? words text).isSome

/-- The switches of every command. -/
def globalSwitches : List Switch := [
  { long := "quiet", short := some 'q' },
  { long := "verbose", short := some 'v' },
  { long := "color", takes := .one (isWord ColourChoice.words) },
  { long := "config", takes := .one fun _ => true },
  { long := "help", short := some 'h', takes := .stop .help }]

/-- The switches before the command's name. -/
def rootSwitches : List Switch :=
  { long := "version", short := some 'V', takes := .stop .version } :: globalSwitches

/-- The switches for the number of contexts and the form of the result. -/
def commonSwitches : List Switch := [
  { long := "contexts", takes := .one fun text => (nat32? text).isSome },
  { long := "format", short := some 'f', takes := .one (isWord Format.words) }]

/-- The switches for placing. -/
def placeSwitches : List Switch := globalSwitches ++ commonSwitches ++ [
  { long := "optimize" },
  { long := "objective", takes := .one (isWord NodeFilter.words) },
  { long := "encoding", takes := .one (isWord PopcountEncoding.words) },
  { long := "incremental" },
  { long := "cutoff", takes := .one fun text => (Decimal.ofText? text).isSome },
  { long := "freeze-placement" },
  { long := "duplicate", takes := .many fun _ => true },
  { long := "duplicate-const" },
  { long := "time" }]

/-- The switches for counting. -/
def countSwitches : List Switch := globalSwitches ++ commonSwitches

/-- The value of a switch as it was read. -/
def Given.value? {α : Type} (g : Given) (read? : String → Option α) (name : String) : Option α :=
  (g.values name).head? >>= read?

/-- The form of the result that was asked for. -/
def Given.format (g : Given) : Format := (g.value? (choice? Format.words) "format").getD .text

/-- The options for placing that were given. -/
def PlaceOptions.ofGiven (g : Given) : PlaceOptions where
  contexts := g.value? nat32? "contexts"
  optimize := g.has "optimize"
  filter := g.value? (choice? NodeFilter.words) "objective"
  encoding := g.value? (choice? PopcountEncoding.words) "encoding"
  incremental := g.has "incremental"
  cutoff := g.value? Decimal.ofText? "cutoff"
  freezePlacement := g.has "freeze-placement"
  duplicates := g.values "duplicate" ++ if g.has "duplicate-const" then ["const"] else []
  format := g.format
  time := g.has "time"

/-- The options for counting that were given. -/
def CountOptions.ofGiven (g : Given) : CountOptions := ⟨g.value? nat32? "contexts", g.format⟩

/-- A command from what was given before and after its name; what stands after it wins. -/
def Command.ofGiven (root inner : Given) (action : Action) : Except Stop Command :=
  let has (name : String) := inner.has name || root.has name
  let value? {α : Type} (read? : String → Option α) (name : String) :=
    (inner.value? read? name).or (root.value? read? name)
  match inner.operands with
  | [design, fabric] =>
    .ok {
      inputs := ⟨value? some "config", design, fabric⟩
      global := ⟨has "quiet", has "verbose", (value? (choice? ColourChoice.words) "color").getD .auto⟩
      action := action }
  | _ => .error .usage

/-- The command that a list of arguments asks for. -/
def Command.ofArguments (args : List String) : Except Stop Command := do
  let (root, name, rest) ← readUntil rootSwitches ["place", "parse", "help"] {} args
  match name with
  | "place" => do
    let given ← read placeSwitches 2 rest
    ofGiven root given (.place (.ofGiven given))
  | "parse" => do
    let given ← read countSwitches 2 rest
    ofGiven root given (.count (.ofGiven given))
  | _ => throw (if rest ∈ [[], ["place"], ["parse"], ["help"]] then .help else .usage)

/-- The settings as the options for placing change them. -/
def PlaceOptions.apply (o : PlaceOptions) (s : Settings) : Settings := {
  graph := { s.graph with contexts := o.contexts.getD s.graph.contexts }
  duplicateOpcodes :=
    o.duplicates.foldl (fun l opcode => if opcode ∈ l then l else l ++ [opcode]) s.duplicateOpcodes
  optimize := { s.optimize with
    enabled := s.optimize.enabled || o.optimize
    incremental := s.optimize.incremental || o.incremental
    freezePlacement := s.optimize.freezePlacement || o.freezePlacement
    filter := o.filter.getD s.optimize.filter
    encoding := o.encoding.getD s.optimize.encoding
    cutoff := o.cutoff.or s.optimize.cutoff } }

/-- The settings as the options for counting change them. -/
def CountOptions.apply (o : CountOptions) (s : Settings) : Settings :=
  { s with graph := { s.graph with contexts := o.contexts.getD s.graph.contexts } }

/-- The settings as the command changes them. -/
def Action.apply : Action → Settings → Settings
  | place o, s => o.apply s
  | count o, s => o.apply s

end CommandLine
end PlaceRoute
