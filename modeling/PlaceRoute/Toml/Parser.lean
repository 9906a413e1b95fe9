import PlaceRoute.Toml.Scalar

/-!
# Reading TOML text

`Toml.parse?` reads a document line by line and adds the lines up to its table.
-/

namespace PlaceRoute
namespace Toml

/-- A character of a key without quotes. -/
def isKeyChar (c : Char) : Bool := c.isAlphanum || c == '_' || c == '-'

/-- A key without dots. -/
def simpleKey? (text : List Char) : Option (String × List Char) :=
  match text with
  | '"' :: _ | '\'' :: _ => shortString? text
  | _ =>
    let key := text.takeWhile isKeyChar
    if key.isEmpty then none else some (String.ofList key, text.dropWhile isKeyChar)

/-- The keys between dots, at most `fuel` of them, and the text after the blanks after them. -/
def keys? : Nat → List Char → Option (List String × List Char)
  | 0, _ => none
  | fuel + 1, text => do
    let (key, rest) ← simpleKey? (skipBlanks text)
    match skipBlanks rest with
    | '.' :: rest =>
      let (keys, rest) ← keys? fuel rest
      some (key :: keys, rest)
    | rest => some ([key], rest)

/-- How deep arrays and tables may be nested, and how many keys a dotted key may have. -/
def depthLimit : Nat := 79

/-- A dotted key. -/
def path? (text : List Char) : Option (Path × List Char) := do
  let (keys, rest) ← keys? text.length text
  if depthLimit < keys.length then none
  some (⟨keys.dropLast, ← keys.getLast?⟩, rest)

/-- The text after a comment, if there is one here. -/
def skipComment : List Char → List Char
  | '#' :: rest => rest.dropWhile isText
  | text => text

/-- The text after blanks, newlines and whole comments. -/
def skipLines : Nat → List Char → Option (List Char)
  | 0, _ => none
  | fuel + 1, text =>
    match skipBlanks text with
    | '#' :: rest => do skipLines fuel (← newline? (rest.dropWhile isText))
    | '\n' :: rest => skipLines fuel rest
    | '\r' :: rest => do skipLines fuel (← newline? ('\r' :: rest))
    | rest => some rest

/-- The text after the end of a line; there may be blanks and a comment before it. -/
def lineEnd? (text : List Char) : Option (List Char) :=
  match skipComment (skipBlanks text) with
  | [] => some []
  | rest => newline? rest

/-- The text after a fixed word. -/
def word? (word text : List Char) : Option (List Char) :=
  if word.isPrefixOf text then some (text.drop word.length) else none

mutual

/-- A value inside which arrays and tables are nested at most `depth` deep; the fuel bounds the number of tokens. -/
def value? : Nat → Nat → List Char → Option (Toml × List Char)
  | 0, _, _ => none
  | fuel + 1, depth, text =>
    match text with
    | '[' :: rest => do
      if depth = 0 then none
      let (items, rest) ← items? fuel (depth - 1) rest
      some (.arr items, rest)
    | '{' :: rest => do
      if depth = 0 then none
      let (fields, rest) ←
        match skipBlanks rest with
        | '}' :: rest => some ([], rest)
        | rest => fields? fuel (depth - 1) rest
      some (← ofFields? fields, rest)
    | 't' :: rest => do some (.bool true, ← word? ['r', 'u', 'e'] rest)
    | 'f' :: rest => do some (.bool false, ← word? ['a', 'l', 's', 'e'] rest)
    | '"' :: _ | '\'' :: _ => do
      let (s, rest) ← string? text
      some (.str s, rest)
    | _ =>
      match datetime? text with
      | some rest => some (.datetime, rest)
      | none => number? text

/-- Items and the closing bracket. -/
def items? : Nat → Nat → List Char → Option (List Toml × List Char)
  | 0, _, _ => none
  | fuel + 1, depth, text => do
    match ← skipLines (text.length + 1) text with
    | ']' :: rest => some ([], rest)
    | rest =>
      let (item, rest) ← value? fuel depth rest
      match ← skipLines (rest.length + 1) rest with
      | ']' :: rest => some ([item], rest)
      | ',' :: rest =>
        let (items, rest) ← items? fuel depth rest
        some (item :: items, rest)
      | _ => none

/-- One or more fields and the closing brace. -/
def fields? : Nat → Nat → List Char → Option (List (Path × Toml) × List Char)
  | 0, _, _ => none
  | fuel + 1, depth, text => do
    let (path, rest) ← path? text
    let (value, rest) ← value? fuel depth (skipBlanks (← expect? '=' rest))
    match skipBlanks rest with
    | '}' :: rest => some ([(path, value)], rest)
    | ',' :: rest =>
      let (fields, rest) ← fields? fuel depth rest
      some ((path, value) :: fields, rest)
    | _ => none

end

/-- A line with a header or a field, and the text after the line. -/
def line? (text : List Char) : Option (Line × List Char) :=
  match text with
  | '[' :: '[' :: rest => do
    let (path, rest) ← path? rest
    some (.repeatedHeader path, ← lineEnd? (← expect? ']' (← expect? ']' rest)))
  | '[' :: rest => do
    let (path, rest) ← path? rest
    some (.header path, ← lineEnd? (← expect? ']' rest))
  | _ => do
    let (path, rest) ← path? text
    let (value, rest) ← value? (2 * text.length + 2) depthLimit (skipBlanks (← expect? '=' rest))
    some (.field path value, ← lineEnd? rest)

/-- The lines of a document, at most `fuel` of them. -/
def lines? : Nat → List Char → Option (List Line)
  | 0, _ => none
  | fuel + 1, text =>
    match skipBlanks text with
    | [] => some []
    | c :: rest =>
      if c = '#' ∨ c = '\n' ∨ c = '\r' then do lines? fuel (← lineEnd? (c :: rest))
      else do
        let (line, rest) ← line? (c :: rest)
        some (line :: (← lines? fuel rest))

/-- The table that a whole text writes; a byte order mark at its start is read over. -/
def parse? (text : String) : Option Toml := do
  let chars := match text.toList with
    | '\ufeff' :: rest => rest
    | chars => chars
  ofLines? (← lines? (chars.length + 1) chars)

end Toml
end PlaceRoute
