import PlaceRoute.Json.Basic

/-!
# Reading records out of JSON

A record may be written as an object with named fields in any order, or as an array of its fields in their order.
Unknown fields are read over, a known field may not repeat, and trailing fields may be missing from an array.
-/

namespace PlaceRoute
namespace Json

/-- The values of a record's fields, in the order of `names`; `none` where a field is not written. -/
def record? (names : List String) : Json → Option (List (Option Json))
  | obj fields =>
    if names.all fun name => decide (fields.countP (·.1 == name) ≤ 1) then
      some (names.map fun name => fields.lookup name)
    else none
  | arr items =>
    if items.length ≤ names.length then
      some ((items.map some) ++ List.replicate (names.length - items.length) none)
    else none
  | _ => none

/-- A string. -/
def string? : Json → Option String
  | str s => some s
  | _ => none

/-- A number written with digits only. -/
def nat? : Json → Option Nat
  | nat n => some n
  | _ => none

/-- A number below `2 ^ 32`, written with digits only. -/
def nat32? : Json → Option Nat
  | nat n => if n < UInt32.size then some n else none
  | _ => none

/-- A list. -/
def list? {α : Type} (item? : Json → Option α) : Json → Option (List α)
  | arr items => items.mapM item?
  | _ => none

/-- A value that may be null. -/
def orNull? {α : Type} (read? : Json → Option α) : Json → Option (Option α)
  | null => some none
  | j => some <$> read? j

/-- A field that may be left out, with the value that it has then. -/
def orDefault {α : Type} (default : α) (read? : Json → Option α) : Option Json → Option α
  | none => some default
  | some j => read? j

/-- One of several words, alone or as the only key of an object over null. -/
def choice? {α : Type} (choices : List (String × α)) : Json → Option α
  | str s => choices.lookup s
  | obj [(s, null)] => choices.lookup s
  | _ => none

end Json
end PlaceRoute
