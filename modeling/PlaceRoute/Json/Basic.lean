/-!
# JSON values

`Json` is a document as its readers and writers see it. Object fields stay in their written order and may repeat, so
that a reader can refuse repetitions. `compact` and `pretty` are the two printed forms.
-/

namespace PlaceRoute

/-- A JSON document. -/
inductive Json where
  | null
  | bool (b : Bool)
  /-- A number written with digits only. -/
  | nat (n : Nat)
  /-- Any other number: the mantissa times this power of ten, with its sign. -/
  | decimal (negative : Bool) (mantissa : Nat) (exponent : Int)
  | str (s : String)
  | arr (items : List Json)
  | obj (fields : List (String × Json))
  /-- A string, or an object with a key, that the grammar admits but whose escapes name no text. -/
  | illFormed
  deriving Inhabited

namespace Json

/-- The hexadecimal digit of a number below sixteen, in lower case. -/
def hexDigit (n : Nat) : Char :=
  if n < 10 then Char.ofNat ('0'.toNat + n) else Char.ofNat ('a'.toNat + (n - 10))

/-- A character inside quotes: quote, backslash and control characters are escaped, all else stands for itself. -/
def escapeChar (c : Char) : String :=
  match c with
  | '"' => "\\\""
  | '\\' => "\\\\"
  | '\n' => "\\n"
  | '\r' => "\\r"
  | '\t' => "\\t"
  | '\x08' => "\\b"
  | '\x0c' => "\\f"
  | c =>
    if c.toNat < 0x20 then
      String.ofList ['\\', 'u', '0', '0', hexDigit (c.toNat / 16), hexDigit (c.toNat % 16)]
    else c.toString

/-- A string in quotes. -/
def quote (s : String) : String :=
  "\"" ++ s.foldl (fun acc c => acc ++ escapeChar c) "" ++ "\""

/-- The text of a number that is not plain digits. -/
def decimalText (negative : Bool) (mantissa : Nat) (exponent : Int) : String :=
  (if negative then "-" else "") ++ toString mantissa ++
    (if exponent = 0 then "" else "e" ++ toString exponent)

mutual

/-- The text without any white space. -/
def compact : Json → String
  | null => "null"
  | bool b => if b then "true" else "false"
  | nat n => toString n
  | decimal negative mantissa exponent => decimalText negative mantissa exponent
  | str s => quote s
  | arr items => "[" ++ compactItems items ++ "]"
  | obj fields => "\x7b" ++ compactFields fields ++ "\x7d"
  | illFormed => "null"

/-- Items with commas between them. -/
def compactItems : List Json → String
  | [] => ""
  | [item] => compact item
  | item :: items => compact item ++ "," ++ compactItems items

/-- Fields with commas between them. -/
def compactFields : List (String × Json) → String
  | [] => ""
  | [(key, value)] => quote key ++ ":" ++ compact value
  | (key, value) :: fields => quote key ++ ":" ++ compact value ++ "," ++ compactFields fields

end

/-- A line break and the indentation of a nesting depth, two blanks a level. -/
def lineBreak (depth : Nat) : String := "\n" ++ "".pushn ' ' (2 * depth)

mutual

/-- The text with one item or field a line, for a value that stands at nesting depth `depth`. -/
def prettyAt (depth : Nat) : Json → String
  | arr [] => "[]"
  | arr (item :: items) => "[" ++ prettyItems (depth + 1) (item :: items) ++ lineBreak depth ++ "]"
  | obj [] => "\x7b\x7d"
  | obj (field :: fields) => "\x7b" ++ prettyFields (depth + 1) (field :: fields) ++ lineBreak depth ++ "\x7d"
  | null => "null"
  | bool b => if b then "true" else "false"
  | nat n => toString n
  | decimal negative mantissa exponent => decimalText negative mantissa exponent
  | str s => quote s
  | illFormed => "null"

/-- Items on lines of their own. -/
def prettyItems (depth : Nat) : List Json → String
  | [] => ""
  | [item] => lineBreak depth ++ prettyAt depth item
  | item :: items => lineBreak depth ++ prettyAt depth item ++ "," ++ prettyItems depth items

/-- Fields on lines of their own. -/
def prettyFields (depth : Nat) : List (String × Json) → String
  | [] => ""
  | [(key, value)] => lineBreak depth ++ quote key ++ ": " ++ prettyAt depth value
  | (key, value) :: fields =>
    lineBreak depth ++ quote key ++ ": " ++ prettyAt depth value ++ "," ++ prettyFields depth fields

end

/-- The text with one item or field a line. -/
def pretty (j : Json) : String := prettyAt 0 j

end Json
end PlaceRoute
