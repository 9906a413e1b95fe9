import PlaceRoute.Json.Basic
import PlaceRoute.Text

/-!
# Reading JSON text

`Json.parse?` accepts exactly the texts of the JSON grammar. A text is read from a list of characters by functions
that return the value read and the characters after it.
-/

namespace PlaceRoute
namespace Json

/-- The four characters that may stand between tokens. -/
def isBlank (c : Char) : Bool := c == ' ' || c == '\n' || c == '\r' || c == '\t'

/-- The text from its first token on. -/
def skipBlanks (text : List Char) : List Char := text.dropWhile isBlank

/-- What stands between quotes: a character, or a code unit given by an escape with four digits. -/
inductive Piece where
  | char (c : Char)
  | unit (n : Nat)

/-- The character named by an escape of one letter. -/
def escaped? : Char → Option Char
  | '"' => some '"'
  | '\\' => some '\\'
  | '/' => some '/'
  | 'b' => some '\x08'
  | 'f' => some '\x0c'
  | 'n' => some '\n'
  | 'r' => some '\r'
  | 't' => some '\t'
  | _ => none

/-- The code unit with some hexadecimal digits. -/
def unit? (digits : List Char) : Option Nat :=
  if digits.all fun c => (Text.digitValue? c).isSome then some (Text.numberOf 16 digits) else none

/-- The pieces up to the closing quote. -/
def pieces? : List Char → Option (List Piece × List Char)
  | [] => none
  | '"' :: rest => some ([], rest)
  | '\\' :: 'u' :: a :: b :: c :: d :: rest => do
    let unit ← unit? [a, b, c, d]
    let (pieces, rest) ← pieces? rest
    some (.unit unit :: pieces, rest)
  | '\\' :: c :: rest => do
    let c ← escaped? c
    let (pieces, rest) ← pieces? rest
    some (.char c :: pieces, rest)
  | c :: rest => do
    if c.toNat < 0x20 ∨ c = '\\' then none
    let (pieces, rest) ← pieces? rest
    some (.char c :: pieces, rest)

/-- Whether a code unit opens a pair. -/
def isHighUnit (n : Nat) : Bool := 0xD800 ≤ n && n < 0xDC00

/-- Whether a code unit closes a pair. -/
def isLowUnit (n : Nat) : Bool := 0xDC00 ≤ n && n < 0xE000

/-- The characters of the pieces; two code units may form one character, and half a pair forms none. -/
def charsOf? : List Piece → Option (List Char)
  | [] => some []
  | .char c :: rest => do some (c :: (← charsOf? rest))
  | .unit n :: .unit m :: rest =>
    if isHighUnit n then
      if isLowUnit m then do
        some (Char.ofNat (0x10000 + (n - 0xD800) * 0x400 + (m - 0xDC00)) :: (← charsOf? rest))
      else none
    else if isLowUnit n then none
    else do some (Char.ofNat n :: (← charsOf? (.unit m :: rest)))
  | .unit n :: rest =>
    if isHighUnit n || isLowUnit n then none else do some (Char.ofNat n :: (← charsOf? rest))

/-- A string after its opening quote; the inner `none` is a string that names no text. -/
def stringTail? (text : List Char) : Option (Option String × List Char) := do
  let (pieces, rest) ← pieces? text
  some ((charsOf? pieces).map String.ofList, rest)

/-- The exponent after `e`, or zero where none is written. -/
def exponent? (text : List Char) : Option (Option Int × List Char) :=
  match text with
  | e :: rest =>
    if e = 'e' ∨ e = 'E' then
      let (negative, rest) := Text.splitSign rest
      let digits := rest.takeWhile Char.isDigit
      if digits.isEmpty then none
      else
        some (some (Text.signed negative (Text.numberOf 10 digits)), rest.dropWhile Char.isDigit)
    else some (none, text)
  | [] => some (none, text)

/-- The digits after a decimal point, or none where no point is written. -/
def fraction? (text : List Char) : Option (Option (List Char) × List Char) :=
  match text with
  | '.' :: rest =>
    let digits := rest.takeWhile Char.isDigit
    if digits.isEmpty then none else some (some digits, rest.dropWhile Char.isDigit)
  | _ => some (none, text)

/-- A number after its sign. -/
def number? (negative : Bool) (text : List Char) : Option (Json × List Char) := do
  let whole := text.takeWhile Char.isDigit
  if whole.isEmpty ∨ (whole.head? = some '0' ∧ whole.length ≠ 1) then none
  let (fraction, rest) ← fraction? (text.dropWhile Char.isDigit)
  let (exponent, rest) ← exponent? rest
  if !negative && fraction.isNone && exponent.isNone then
    some (.nat (Text.numberOf 10 whole), rest)
  else
    let digits := fraction.getD []
    some (.decimal negative (Text.numberOf 10 (whole ++ digits)) (exponent.getD 0 - digits.length), rest)

/-- The text after a fixed word. -/
def word? (word : List Char) (text : List Char) : Option (List Char) :=
  if word.isPrefixOf text then some (text.drop word.length) else none

/-- An object from its fields, none of which may have a key that names no text. -/
def ofFields (fields : List (Option String × Json)) : Json :=
  match fields.mapM fun (key, value) => key.map (·, value) with
  | some fields => .obj fields
  | none => .illFormed

mutual

/-- A value at the start of the text; the fuel bounds the number of tokens. -/
def value? : Nat → List Char → Option (Json × List Char)
  | 0, _ => none
  | fuel + 1, text =>
    match skipBlanks text with
    | '"' :: rest => do
      let (s, rest) ← stringTail? rest
      some ((s.map Json.str).getD .illFormed, rest)
    | '[' :: rest =>
      match skipBlanks rest with
      | ']' :: rest => some (.arr [], rest)
      | rest => do
        let (items, rest) ← items? fuel rest
        some (.arr items, rest)
    | '{' :: rest =>
      match skipBlanks rest with
      | '}' :: rest => some (.obj [], rest)
      | rest => do
        let (fields, rest) ← fields? fuel rest
        some (ofFields fields, rest)
    | '-' :: rest => number? true rest
    | 'n' :: rest => do some (.null, ← word? ['u', 'l', 'l'] rest)
    | 't' :: rest => do some (.bool true, ← word? ['r', 'u', 'e'] rest)
    | 'f' :: rest => do some (.bool false, ← word? ['a', 'l', 's', 'e'] rest)
    | rest => number? false rest

/-- One or more items and the closing bracket. -/
def items? : Nat → List Char → Option (List Json × List Char)
  | 0, _ => none
  | fuel + 1, text => do
    let (item, rest) ← value? fuel text
    match skipBlanks rest with
    | ']' :: rest => some ([item], rest)
    | ',' :: rest =>
      let (items, rest) ← items? fuel rest
      some (item :: items, rest)
    | _ => none

/-- One or more fields and the closing brace. -/
def fields? : Nat → List Char → Option (List (Option String × Json) × List Char)
  | 0, _ => none
  | fuel + 1, text =>
    match skipBlanks text with
    | '"' :: rest => do
      let (key, rest) ← stringTail? rest
      match skipBlanks rest with
      | ':' :: rest =>
        let (value, rest) ← value? fuel rest
        match skipBlanks rest with
        | '}' :: rest => some ([(key, value)], rest)
        | ',' :: rest =>
          let (fields, rest) ← fields? fuel rest
          some ((key, value) :: fields, rest)
        | _ => none
      | _ => none
    | _ => none

end

/-- The document that the whole text writes. -/
def parse? (text : String) : Option Json := do
  let chars := text.toList
  let (value, rest) ← value? (2 * chars.length + 2) chars
  if (skipBlanks rest).isEmpty then some value else none

end Json
end PlaceRoute
