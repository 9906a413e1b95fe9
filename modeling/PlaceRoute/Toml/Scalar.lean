import PlaceRoute.Decimal.Nearest
import PlaceRoute.Toml.Basic

/-!
# Strings, numbers and dates in TOML

Each function reads one scalar from the start of a list of characters and returns the characters after it.
-/

namespace PlaceRoute
namespace Toml

open Text (digitValue? numberOf splitSign signed)

/-- A space or a tab. -/
def isBlank (c : Char) : Bool := c == ' ' || c == '\t'

/-- The text without the blanks at its start. -/
def skipBlanks (text : List Char) : List Char := text.dropWhile isBlank

/-- A character that may stand in comments and strings: no control character other than the tab. -/
def isText (c : Char) : Bool := c == '\t' || (0x20 ≤ c.toNat && c.toNat ≠ 0x7f)

/-- The text after a newline. -/
def newline? : List Char → Option (List Char)
  | '\n' :: rest => some rest
  | '\r' :: '\n' :: rest => some rest
  | _ => none

/-- A value before others that were read. -/
def before {α : Type} (a : α) : List α × List Char → List α × List Char
  | (read, rest) => (a :: read, rest)

/-- The character with a number in hexadecimal digits. -/
def charOfHex? (digits : List Char) : Option Char :=
  let n := numberOf 16 digits
  if digits.all (fun c => (digitValue? c).isSome) ∧ n.isValidChar then some (Char.ofNat n) else none

/-- The character named by an escape of one letter. -/
def escaped? : Char → Option Char
  | '"' => some '"'
  | '\\' => some '\\'
  | 'b' => some '\x08'
  | 'f' => some '\x0c'
  | 'n' => some '\n'
  | 'r' => some '\r'
  | 't' => some '\t'
  | _ => none

/-- A string in double quotes, after the opening one. -/
def basic? : List Char → Option (List Char × List Char)
  | [] => none
  | '"' :: rest => some ([], rest)
  | '\\' :: 'u' :: a :: b :: c :: d :: rest => do
    let char ← charOfHex? [a, b, c, d]
    before char <$> basic? rest
  | '\\' :: 'U' :: a :: b :: c :: d :: e :: f :: g :: h :: rest => do
    let char ← charOfHex? [a, b, c, d, e, f, g, h]
    before char <$> basic? rest
  | '\\' :: c :: rest => do
    let char ← escaped? c
    before char <$> basic? rest
  | c :: rest => if isText c && c ≠ '\\' then before c <$> basic? rest else none

/-- A string in single quotes, after the opening one. -/
def literal? : List Char → Option (List Char × List Char)
  | [] => none
  | '\'' :: rest => some ([], rest)
  | c :: rest => if isText c then before c <$> literal? rest else none

/-- Whether a backslash stands at the end of its line. -/
def endsLine (text : List Char) : Bool := (newline? (skipBlanks text)).isSome

/-- A string in three double quotes, after the opening ones. Up to two more quotes may stand before the closing ones;
`folding` says that a backslash has ended a line, after which blanks and newlines are read over. -/
def longBasic? : Bool → List Char → Option (List Char × List Char)
  | _, '"' :: '"' :: '"' :: '"' :: '"' :: rest => some (['"', '"'], rest)
  | _, '"' :: '"' :: '"' :: '"' :: rest => some (['"'], rest)
  | _, '"' :: '"' :: '"' :: rest => some ([], rest)
  | folding, '\r' :: '\n' :: rest => if folding then longBasic? true rest else before '\n' <$> longBasic? false rest
  | _, '\\' :: 'u' :: a :: b :: c :: d :: rest => do
    let char ← charOfHex? [a, b, c, d]
    before char <$> longBasic? false rest
  | _, '\\' :: 'U' :: a :: b :: c :: d :: e :: f :: g :: h :: rest => do
    let char ← charOfHex? [a, b, c, d, e, f, g, h]
    before char <$> longBasic? false rest
  | _, '\\' :: c :: rest =>
    if endsLine (c :: rest) then longBasic? true (c :: rest)
    else do
      let char ← escaped? c
      before char <$> longBasic? false rest
  | folding, c :: rest =>
    if folding && (isBlank c || c == '\n') then longBasic? true rest
    else if c = '\n' ∨ (isText c ∧ c ≠ '\\') then before c <$> longBasic? false rest
    else none
  | _, [] => none

/-- A string in three single quotes, after the opening ones. -/
def longLiteral? : List Char → Option (List Char × List Char)
  | '\'' :: '\'' :: '\'' :: '\'' :: '\'' :: rest => some (['\'', '\''], rest)
  | '\'' :: '\'' :: '\'' :: '\'' :: rest => some (['\''], rest)
  | '\'' :: '\'' :: '\'' :: rest => some ([], rest)
  | '\r' :: '\n' :: rest => before '\n' <$> longLiteral? rest
  | c :: rest => if c = '\n' ∨ isText c then before c <$> longLiteral? rest else none
  | [] => none

/-- The text without a newline at its start. -/
def dropNewline (text : List Char) : List Char := (newline? text).getD text

/-- A string on one line. -/
def shortString? : List Char → Option (String × List Char)
  | '"' :: rest => do
    let (chars, rest) ← basic? rest
    some (String.ofList chars, rest)
  | '\'' :: rest => do
    let (chars, rest) ← literal? rest
    some (String.ofList chars, rest)
  | _ => none

/-- A string. -/
def string? : List Char → Option (String × List Char)
  | '"' :: '"' :: '"' :: rest => do
    let (chars, rest) ← longBasic? false (dropNewline rest)
    some (String.ofList chars, rest)
  | '\'' :: '\'' :: '\'' :: rest => do
    let (chars, rest) ← longLiteral? (dropNewline rest)
    some (String.ofList chars, rest)
  | text => shortString? text

/-- Digits, of which neighbours may have an underscore between them. -/
def moreDigits? (isDigit : Char → Bool) : List Char → Option (List Char × List Char)
  | '_' :: c :: rest => if isDigit c then before c <$> moreDigits? isDigit rest else none
  | c :: rest =>
    if isDigit c then before c <$> moreDigits? isDigit rest else if c = '_' then none else some ([], c :: rest)
  | [] => some ([], [])

/-- One or more digits. -/
def digits? (isDigit : Char → Bool) : List Char → Option (List Char × List Char)
  | c :: rest => if isDigit c then before c <$> moreDigits? isDigit rest else none
  | [] => none

/-- The digits of a whole number, of which the first is zero only if it is the only one. -/
def wholeDigits? : List Char → Option (List Char × List Char)
  | '0' :: rest => some (['0'], rest)
  | text => digits? Char.isDigit text

/-- An integer, if it fits 64 bits. -/
def int? (n : Int) : Option Toml := if Int64.minValue.toInt ≤ n ∧ n ≤ Int64.maxValue.toInt then some (.int n) else none

/-- The exponent after `e`, if there is one. -/
def exponent? : List Char → Option (Option Int × List Char)
  | c :: rest =>
    if c = 'e' ∨ c = 'E' then do
      let (negative, rest) := splitSign rest
      let (digits, rest) ← digits? Char.isDigit rest
      some (some (signed negative (numberOf 10 digits)), rest)
    else some (none, c :: rest)
  | [] => some (none, [])

/-- The digits after a point, if there is one. -/
def fraction? : List Char → Option (Option (List Char) × List Char)
  | '.' :: rest => do
    let (digits, rest) ← digits? Char.isDigit rest
    some (some digits, rest)
  | text => some (none, text)

/-- A decimal as a double; too large a positive one is refused. -/
def float? (negative : Bool) (mantissa : Nat) (exponent : Int) : Option Toml :=
  let x := Decimal.ofDecimal negative mantissa exponent
  if x.isInf && !negative then none else some (.float x)

/-- A decimal number after its sign. -/
def decimal? (negative : Bool) (text : List Char) : Option (Toml × List Char) := do
  let (whole, rest) ← wholeDigits? text
  let (fraction, rest) ← fraction? rest
  let (exponent, rest) ← exponent? rest
  if fraction.isNone && exponent.isNone then some (← int? (signed negative (numberOf 10 whole)), rest)
  else
    let places := fraction.getD []
    some (← float? negative (numberOf 10 (whole ++ places)) (exponent.getD 0 - places.length), rest)

/-- Whether a character is a digit in base eight. -/
def isOctal (c : Char) : Bool := '0' ≤ c && c ≤ '7'

/-- Whether a character is a digit in base two. -/
def isBinary (c : Char) : Bool := c == '0' || c == '1'

/-- A number in another base, after the characters that say which. -/
def based? (base : Nat) (isDigit : Char → Bool) (text : List Char) : Option (Toml × List Char) := do
  let (digits, rest) ← digits? isDigit text
  some (← int? (numberOf base digits), rest)

/-- A number. -/
def number? : List Char → Option (Toml × List Char)
  | '0' :: 'x' :: rest => based? 16 (digitValue? · |>.isSome) rest
  | '0' :: 'o' :: rest => based? 8 isOctal rest
  | '0' :: 'b' :: rest => based? 2 isBinary rest
  | text =>
    match splitSign text with
    | (negative, 'i' :: 'n' :: 'f' :: rest) => some (.float (if negative then -(1 / 0) else 1 / 0), rest)
    | (_, 'n' :: 'a' :: 'n' :: rest) => some (.float (0 / 0), rest)
    | (negative, rest) => decimal? negative rest

/-- A number of exactly two digits within bounds. -/
def twoDigits? (low high : Nat) : List Char → Option (Nat × List Char)
  | a :: b :: rest =>
    let n := numberOf 10 [a, b]
    if a.isDigit ∧ b.isDigit ∧ low ≤ n ∧ n ≤ high then some (n, rest) else none
  | _ => none

/-- The text after a character. -/
def expect? (c : Char) : List Char → Option (List Char)
  | d :: rest => if d = c then some rest else none
  | [] => none

/-- The number of days of a month. -/
def daysOf (year month : Nat) : Nat :=
  if month = 2 then if year % 4 = 0 ∧ (year % 100 ≠ 0 ∨ year % 400 = 0) then 29 else 28
  else if month = 4 ∨ month = 6 ∨ month = 9 ∨ month = 11 then 30 else 31

/-- The text after a date. -/
def date? (text : List Char) : Option (List Char) := do
  let (century, rest) ← twoDigits? 0 99 text
  let (year, rest) ← twoDigits? 0 99 rest
  let (month, rest) ← twoDigits? 1 12 (← expect? '-' rest)
  let (_, rest) ← twoDigits? 1 (daysOf (100 * century + year) month) (← expect? '-' rest)
  some rest

/-- The text after a time of day. -/
def time? (text : List Char) : Option (List Char) := do
  let (_, rest) ← twoDigits? 0 23 text
  let (_, rest) ← twoDigits? 0 59 (← expect? ':' rest)
  let (_, rest) ← twoDigits? 0 60 (← expect? ':' rest)
  match rest with
  | '.' :: c :: more => if c.isDigit then some (more.dropWhile Char.isDigit) else some rest
  | _ => some rest

/-- The text after an offset from universal time, or the same text where there is none. -/
def offset? (text : List Char) : Option (List Char) :=
  match text with
  | c :: rest =>
    if c = 'Z' ∨ c = 'z' then some rest
    else if c = '+' ∨ c = '-' then do
      let (_, rest) ← twoDigits? 0 23 rest
      let (_, rest) ← twoDigits? 0 59 (← expect? ':' rest)
      some rest
    else some text
  | [] => some text

/-- The text after a date, a time or both. -/
def datetime? (text : List Char) : Option (List Char) :=
  match date? text with
  | none => time? text
  | some rest =>
    match rest with
    | c :: afterDate =>
      if c = 'T' ∨ c = 't' ∨ c = ' ' then
        match time? afterDate with
        | some rest => offset? rest
        | none => some rest
      else some rest
    | [] => some rest

end Toml
end PlaceRoute
