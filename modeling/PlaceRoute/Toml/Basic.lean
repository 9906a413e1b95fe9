/-!
# TOML documents

`Toml` is a document as its reader builds it. A table remembers how it came to be, because that decides whether later
lines may add to it: `Toml.insert?` is the rule for keys and `Toml.open?` and `Toml.append?` are those for headers.
-/

namespace PlaceRoute

/-- How a table came to be. -/
inductive TableOrigin where
  /-- By its own header. -/
  | header
  /-- By the header of a table inside it. -/
  | implied
  /-- By a dotted key. -/
  | dotted
  /-- Between braces. -/
  | inline
  deriving DecidableEq, Repr, Inhabited

/-- Whether a dotted key may go on in a table. -/
def TableOrigin.opensToKeys : TableOrigin → Bool
  | .implied | .dotted => true
  | .header | .inline => false

/-- A TOML document, or a value in one. -/
inductive Toml where
  | str (s : String)
  | int (n : Int)
  | float (x : Float)
  | bool (b : Bool)
  /-- A date, a time or both. -/
  | datetime
  | arr (items : List Toml)
  | table (origin : TableOrigin) (fields : List (String × Toml))
  /-- The tables of a repeated header. -/
  | tables (items : List Toml)
  deriving Inhabited

namespace Toml

/-- A key with dots: the keys before the last dot, and the last one. -/
structure Path where
  parents : List String
  last : String
  deriving DecidableEq, Repr, Inhabited

/-- The fields with one replaced, or with a new one at the end. -/
def setField (key : String) (value : Toml) : List (String × Toml) → List (String × Toml)
  | [] => [(key, value)]
  | (k, v) :: fields => if k = key then (k, value) :: fields else (k, v) :: setField key value fields

/-- Changes the table at the end of a path of dotted keys, which makes the tables that are missing. -/
def underKeys (change : Toml → Option Toml) : List String → Toml → Option Toml
  | [], t => change t
  | key :: path, .table origin fields => do
    let next ← match fields.lookup key with
      | none => underKeys change path (.table .dotted [])
      | some (.table inner innerFields) =>
        if inner.opensToKeys then underKeys change path (.table inner innerFields) else none
      | some (.tables items) => do
        let last ← items.getLast?
        some (.tables (items.dropLast ++ [← underKeys change path last]))
      | some _ => none
    some (.table origin (setField key next fields))
  | _ :: _, _ => none

/-- Changes the table at the end of a path in a header, which makes the tables that are missing. -/
def underHeaders (change : Toml → Option Toml) : List String → Toml → Option Toml
  | [], t => change t
  | key :: path, .table origin fields => do
    let next ← match fields.lookup key with
      | none => underHeaders change path (.table .implied [])
      | some (.table .inline _) => none
      | some (.table inner innerFields) => underHeaders change path (.table inner innerFields)
      | some (.tables items) => do
        let last ← items.getLast?
        some (.tables (items.dropLast ++ [← underHeaders change path last]))
      | some _ => none
    some (.table origin (setField key next fields))
  | _ :: _, _ => none

/-- Adds a field to a table; a dotted key adds only to tables that dotted keys made. -/
def addField (dotted : Bool) (key : String) (value : Toml) : Toml → Option Toml
  | .table origin fields =>
    if decide (origin = .dotted) == dotted ∧ (fields.lookup key).isNone then
      some (.table origin (fields ++ [(key, value)]))
    else none
  | _ => none

/-- Adds a field at a path below a table. -/
def insert? (path : Path) (value : Toml) (t : Toml) : Option Toml :=
  underKeys (addField (!path.parents.isEmpty) path.last value) path.parents t

/-- Opens the table of a header, which may be there only by the headers of tables inside it. -/
def open? (path : Path) (root : Toml) : Option Toml :=
  underHeaders (fun
    | .table origin fields =>
      match fields.lookup path.last with
      | none => some (.table origin (setField path.last (.table .header []) fields))
      | some (.table .implied inner) => some (.table origin (setField path.last (.table .header inner) fields))
      | some _ => none
    | _ => none) path.parents root

/-- Opens another table of a repeated header. -/
def append? (path : Path) (root : Toml) : Option Toml :=
  underHeaders (fun
    | .table origin fields =>
      match fields.lookup path.last with
      | none => some (.table origin (setField path.last (.tables [.table .header []]) fields))
      | some (.tables items) =>
        some (.table origin (setField path.last (.tables (items ++ [.table .header []])) fields))
      | some _ => none
    | _ => none) path.parents root

/-- A table between braces, from its fields in order. -/
def ofFields? (fields : List (Path × Toml)) : Option Toml :=
  fields.foldlM (fun t (path, value) => insert? path value t) (.table .inline [])

/-- A line of a document. -/
inductive Line where
  | field (path : Path) (value : Toml)
  | header (path : Path)
  | repeatedHeader (path : Path)

/-- The document read so far, and the path of the last header. -/
structure Draft where
  root : Toml
  current : List String

/-- Adds a line. -/
def Draft.add? (d : Draft) : Line → Option Draft
  | .field path value => do some { d with root := ← underHeaders (insert? path value) d.current d.root }
  | .header path => do some ⟨← open? path d.root, path.parents ++ [path.last]⟩
  | .repeatedHeader path => do some ⟨← append? path d.root, path.parents ++ [path.last]⟩

/-- The document of some lines. -/
def ofLines? (lines : List Line) : Option Toml := do
  return (← lines.foldlM Draft.add? ⟨.table .header [], []⟩).root

end Toml
end PlaceRoute
