/-!
# Switches and operands

`Reader.next` sorts the arguments of a command, one by one, into switches with their values and operands. A value
follows its switch as the next argument, after an equals sign, or at once after a single letter.
-/

namespace PlaceRoute
namespace CommandLine

/-- Reasons to run no command. -/
inductive Stop where
  /-- The arguments make no sense. -/
  | usage
  /-- Help was asked for. -/
  | help
  /-- The version was asked for. -/
  | version
  deriving DecidableEq, Repr

/-- What follows a switch. -/
inductive Takes where
  | nothing
  /-- One value, and the switch stands once. -/
  | one (valid : String → Bool)
  /-- One value, and the switch may be repeated. -/
  | many (valid : String → Bool)
  /-- The switch ends the reading. -/
  | stop (s : Stop)

/-- A switch of a command. -/
structure Switch where
  long : String
  short : Option Char := none
  takes : Takes := .nothing

/-- Whether a switch may be repeated. -/
def Switch.repeats (s : Switch) : Bool := s.takes matches .many _

/-- Whether a switch admits a value. -/
def Switch.admits (s : Switch) (value : String) : Bool :=
  match s.takes with
  | .one valid | .many valid => valid value
  | _ => true

/-- The arguments that were given. -/
structure Given where
  /-- Switches by their long names, with their values. -/
  switches : List (String × String) := []
  operands : List String := []
  deriving DecidableEq, Repr, Inhabited

namespace Given

/-- Whether a switch was given. -/
def has (g : Given) (name : String) : Bool := (g.switches.lookup name).isSome

/-- The values of a switch in order. -/
def values (g : Given) (name : String) : List String := (g.switches.filter (·.1 = name)).map (·.2)

/-- Adds a switch with its value. -/
def add (g : Given) (s : Switch) (value : String) : Except Stop Given :=
  if (g.has s.long && !s.repeats) || !s.admits value then .error .usage
  else .ok { g with switches := g.switches ++ [(s.long, value)] }

end Given

/-- The state between two arguments. -/
structure Reader where
  given : Given := {}
  /-- The switch whose value comes next. -/
  waiting : Option Switch := none
  /-- Whether all arguments to come are operands. -/
  literal : Bool := false

namespace Reader

/-- Reads a switch, with the value attached to it if there is one. -/
def switch (r : Reader) (s : Switch) (attached : Option String) : Except Stop Reader :=
  match s.takes, attached with
  | .stop reason, none => .error reason
  | .stop _, some _ => .error .usage
  | .nothing, none => do return { r with given := ← r.given.add s "" }
  | .nothing, some _ => .error .usage
  | _, none => .ok { r with waiting := some s }
  | _, some value => do return { r with given := ← r.given.add s value }

/-- Reads a switch by its long name. -/
def long (switches : List Switch) (r : Reader) (arg : List Char) : Except Stop Reader :=
  let name := String.ofList (arg.takeWhile (· ≠ '='))
  let attached := match arg.dropWhile (· ≠ '=') with
    | [] => none
    | _ :: value => some (String.ofList value)
  match switches.find? (·.long = name) with
  | some s => r.switch s attached
  | none => .error .usage

/-- Reads switches by their letters, of which the last may have a value attached. -/
def shorts (switches : List Switch) (r : Reader) : List Char → Except Stop Reader
  | [] => .ok r
  | c :: rest =>
    match switches.find? (·.short = some c) with
    | none => .error .usage
    | some s =>
      match s.takes, rest with
      | .one _, '=' :: value | .many _, '=' :: value => r.switch s (some (String.ofList value))
      | .one _, c :: value | .many _, c :: value => r.switch s (some (String.ofList (c :: value)))
      | _, _ => do shorts switches (← r.switch s none) rest

/-- Reads an operand, of which there may be as many as `limit`. -/
def operand (limit : Nat) (r : Reader) (arg : String) : Except Stop Reader :=
  if r.given.operands.length < limit then
    .ok { r with given := { r.given with operands := r.given.operands ++ [arg] } }
  else .error .usage

/-- Whether an argument is no value, but starts a switch. -/
def startsSwitch : List Char → Bool
  | '-' :: _ :: _ => true
  | _ => false

/-- Reads an argument. -/
def next (switches : List Switch) (limit : Nat) (r : Reader) (arg : String) : Except Stop Reader :=
  if r.literal then r.operand limit arg
  else match r.waiting with
    | some s =>
      if startsSwitch arg.toList then .error .usage
      else do return { r with given := ← r.given.add s arg, waiting := none }
    | none =>
      match arg.toList with
      | ['-', '-'] => .ok { r with literal := true }
      | '-' :: '-' :: rest => r.long switches rest
      | '-' :: c :: rest => r.shorts switches (c :: rest)
      | _ => r.operand limit arg

/-- What was given, if no value is missing. -/
def finish (r : Reader) : Except Stop Given := if r.waiting.isSome then .error .usage else .ok r.given

end Reader

/-- Reads the arguments of a command. -/
def read (switches : List Switch) (limit : Nat) (args : List String) : Except Stop Given := do
  (← args.foldlM (Reader.next switches limit) {}).finish

/-- Reads switches up to the name of a command, and returns the name and the arguments after it. -/
def readUntil (switches : List Switch) (names : List String) :
    Reader → List String → Except Stop (Given × String × List String)
  | _, [] => .error .usage
  | r, arg :: rest =>
    if !r.literal && r.waiting.isNone && decide (arg ∈ names) then .ok (r.given, arg, rest)
    else do readUntil switches names (← r.next switches 0 arg) rest

end CommandLine
end PlaceRoute
