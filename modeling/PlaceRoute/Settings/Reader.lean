import PlaceRoute.Settings.Basic
import PlaceRoute.Toml.Parser

/-!
# Reading settings

`Settings.load` reads the settings of a run from the text of a TOML document and checks them. Every field may be left
out, and a field that no setting has is refused.
-/

namespace PlaceRoute
namespace Toml

/-- The values of a table's fields, in the order of `names`. The items of an array stand for the fields in this order,
and further items are read over. -/
def record? (names : List String) : Toml → Option (List (Option Toml))
  | table _ fields =>
    if fields.all fun (name, _) => decide (name ∈ names) then some (names.map fun name => fields.lookup name) else none
  | arr items | tables items => some (names.zipIdx.map fun (_, i) => items[i]?)
  | _ => none

/-- A field that may be left out, with the value that it has then. -/
def orDefault {α : Type} (default : α) (read? : Toml → Option α) : Option Toml → Option α
  | none => some default
  | some t => read? t

/-- A string. -/
def asString? : Toml → Option String
  | str s => some s
  | _ => none

/-- True or false. -/
def asBool? : Toml → Option Bool
  | bool b => some b
  | _ => none

/-- A number below `2 ^ 32`. -/
def asNat32? : Toml → Option Nat
  | int n => if 0 ≤ n ∧ n < UInt32.size then some n.toNat else none
  | _ => none

/-- A number; a whole one becomes the nearest double. -/
def asFloat? : Toml → Option Float
  | float x => some x
  | int n => some (Decimal.ofDecimal (n < 0) n.natAbs 0)
  | _ => none

/-- A list of strings. -/
def asStrings? : Toml → Option (List String)
  | arr items | tables items => items.mapM asString?
  | _ => none

/-- A value that is there. -/
def asSome? {α : Type} (read? : Toml → Option α) (t : Toml) : Option (Option α) := some <$> read? t

/-- Whether a value is an array or a table of nothing. -/
def isEmpty : Toml → Bool
  | arr items | tables items => items.isEmpty
  | table _ fields => fields.isEmpty
  | _ => false

/-- A word, alone or as the only key of a table over nothing. -/
def asWord? {α : Type} (words : List (String × α)) : Toml → Option α
  | str s => words.lookup s
  | table _ [(s, t)] => if t.isEmpty then words.lookup s else none
  | _ => none

end Toml

open Toml (record? orDefault asBool? asNat32? asFloat? asStrings? asSome? asWord?)

/-- The graph options in a table. -/
def GraphOptions.ofToml? (t : Toml) : Option GraphOptions := do
  match ← record? ["contexts", "cycle_break", "registers"] t with
  | [contexts, cycleBreak, registers] =>
    some {
      contexts := ← orDefault 1 asNat32? contexts
      cycleBreak := ← orDefault .backEdges (asWord? CycleBreak.words) cycleBreak
      registers := ← orDefault .elide (asWord? RegisterPolicy.words) registers }
  | _ => none

/-- The optimizer's settings in a table. -/
def OptimizeSettings.ofToml? (t : Toml) : Option OptimizeSettings := do
  match ← record? ["enabled", "objective", "encoding", "incremental", "cutoff", "freeze_placement", "final_cutoff",
      "first_cut", "max_iterations", "time_budget_secs", "check_models"] t with
  | [enabled, filter, encoding, incremental, cutoff, freezePlacement, finalCutoff, firstCut, maxIterations, timeBudget,
      checkModels] =>
    some {
      enabled := ← orDefault false asBool? enabled
      filter := ← orDefault .muxRegister (asWord? NodeFilter.words) filter
      encoding := ← orDefault .bitHack (asWord? PopcountEncoding.words) encoding
      incremental := ← orDefault false asBool? incremental
      cutoff := ← orDefault none (asSome? asFloat?) cutoff
      freezePlacement := ← orDefault false asBool? freezePlacement
      finalCutoff := ← orDefault 0 asFloat? finalCutoff
      firstCut := ← orDefault .upperMinusOne (asWord? FirstCut.words) firstCut
      maxIterations := ← orDefault none (asSome? asNat32?) maxIterations
      timeBudget := ← orDefault none (asSome? asFloat?) timeBudget
      checkModels := ← orDefault true asBool? checkModels }
  | _ => none

namespace Settings

/-- The opcodes that may be duplicated, in the table about the design. -/
def duplicatesOfToml? (t : Toml) : Option (List String) := do
  match ← record? ["duplicate_opcodes"] t with
  | [opcodes] => orDefault [] asStrings? opcodes
  | _ => none

/-- The settings in a document. -/
def ofToml? (t : Toml) : Option Settings := do
  match ← record? ["mrrg", "design", "optimize"] t with
  | [graph, design, optimize] =>
    some {
      graph := ← orDefault {} GraphOptions.ofToml? graph
      duplicateOpcodes := ← orDefault [] duplicatesOfToml? design
      optimize := ← orDefault {} OptimizeSettings.ofToml? optimize }
  | _ => none

/-- Reasons why settings are not read. -/
inductive LoadError where
  /-- The text is no TOML document, or no document of settings. -/
  | malformed
  | invalid (e : Invalid)
  deriving Repr

/-- The text of a failure to read settings. -/
def LoadError.message : LoadError → String
  | malformed => "failed to parse configuration: no settings"
  | invalid e => s!"validation error: {e.message}"

/-- The settings in the text of a document. -/
def load (text : String) : Except LoadError Settings := do
  match Toml.parse? text >>= ofToml? with
  | none => throw .malformed
  | some s =>
    s.validate.mapError .invalid
    pure s

end Settings
end PlaceRoute
