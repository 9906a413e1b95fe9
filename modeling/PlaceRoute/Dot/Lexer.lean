import PlaceRoute.Dot.Token

/-!
# Splitting text into tokens

`lex` drops blanks and comments and returns the tokens with their lines. A bare word is a letter, digit, underscore,
character above ASCII, minus or point, followed by such characters other than minus; a quoted string may hold any
character, a quote in it follows a backslash.
-/

namespace PlaceRoute
namespace Dot

/-- The ASCII characters that separate tokens. -/
def isBlank (c : Char) : Bool := c == ' ' || c == '\t' || c == '\n' || c == '\x0c' || c == '\r'

/-- Letters, digits, the underscore and everything above ASCII. -/
def isIdChar (c : Char) : Bool := c.isAlphanum || c == '_' || decide (0x80 ≤ c.toNat)

/-- The characters that a bare word goes on with. -/
def isWordChar (c : Char) : Bool := isIdChar c || c == '.'

/-- The characters that a bare word starts with. -/
def isWordStart (c : Char) : Bool := isWordChar c || c == '-'

/-- The token that a character is by itself. -/
def punctuation? : Char → Option Token
  | '{' => some .lbrace
  | '}' => some .rbrace
  | '[' => some .lbracket
  | ']' => some .rbracket
  | '=' => some .equals
  | ';' => some .semicolon
  | ',' => some .comma
  | _ => none

/-- The number of lines that a character ends. -/
def newLines (c : Char) : Nat := if c = '\n' then 1 else 0

/-- The rest of a text after the end of a block comment, and the line there; an error is the last line. -/
def closeComment (line : Nat) : List Char → Except Nat (Nat × List Char)
  | [] => .error line
  | '*' :: '/' :: rest => .ok (line, rest)
  | c :: rest => closeComment (line + newLines c) rest

/-- The characters up to the closing quote, the line there and the rest; an error is the last line. -/
def closeQuote (line : Nat) : List Char → Except Nat (List Char × Nat × List Char)
  | [] => .error line
  | '"' :: rest => .ok ([], line, rest)
  | '\\' :: '"' :: rest => do
    let (text, line, rest) ← closeQuote line rest
    pure ('"' :: text, line, rest)
  | c :: rest => do
    let (text, line, rest) ← closeQuote (line + newLines c) rest
    pure (c :: text, line, rest)

theorem length_le_of_closeComment {line end_ : Nat} {cs rest : List Char}
    (h : closeComment line cs = .ok (end_, rest)) : rest.length ≤ cs.length := by
  fun_induction closeComment line cs with
  | case1 => cases h
  | case2 => cases h; simp; omega
  | case3 _ _ _ _ ih => have := ih h; simp; omega

theorem length_le_of_closeQuote {line end_ : Nat} {cs text rest : List Char}
    (h : closeQuote line cs = .ok (text, end_, rest)) : rest.length ≤ cs.length := by
  fun_induction closeQuote line cs generalizing text with
  | case1 => cases h
  | case2 => cases h; simp
  | case3 line rest' ih =>
    cases hq : closeQuote line rest' with
    | error e => rw [hq] at h; cases h
    | ok r =>
      rw [hq] at h
      cases h
      have := ih hq
      simp; omega
  | case4 line c rest' _ _ ih =>
    cases hq : closeQuote (line + newLines c) rest' with
    | error e => rw [hq] at h; cases h
    | ok r =>
      rw [hq] at h
      cases h
      have := ih hq
      simp; omega

/-- Puts a token in front of the tokens that follow. -/
def Tokens.cons (token : Token) (line : Nat) (rest : Tokens) : Tokens := ⟨⟨token, line⟩ :: rest.tokens, rest.endLine⟩

/-- The tokens from a line on; `clear` says that only blanks stand before the text on its line. -/
def lexFrom (line : Nat) (clear : Bool) (text : List Char) : Except Error Tokens :=
  match text with
  | [] => .ok ⟨[], line⟩
  | c :: rest =>
    if c = '\n' then lexFrom (line + 1) true rest
    else if isBlank c then lexFrom line clear rest
    else if (c = '/' ∧ rest.head? = some '/') ∨ (c = '#' ∧ clear) then
      lexFrom line false (rest.dropWhile (· ≠ '\n'))
    else if c = '/' ∧ rest.head? = some '*' then
      match h : closeComment line rest.tail with
      | .error line => .error (.badSyntax line .unterminatedComment)
      | .ok (line, after) =>
        have := length_le_of_closeComment h
        lexFrom line false after
    else match punctuation? c with
    | some token => do return (← lexFrom line false rest).cons token line
    | none =>
      if c = '-' ∧ rest.head? = some '>' then do return (← lexFrom line false rest.tail).cons .arrow line
      else if c = '-' ∧ rest.head? = some '-' then do
        return (← lexFrom line false rest.tail).cons .undirectedEdge line
      else if c = '"' then
        match h : closeQuote line rest with
        | .error line => .error (.badSyntax line .unterminatedString)
        | .ok (text, after, rest') => do
          have := length_le_of_closeQuote h
          return (← lexFrom after false rest').cons (.id (String.ofList text)) line
      else if isWordStart c then do
        let word := rest.takeWhile isWordChar
        return (← lexFrom line false (rest.dropWhile isWordChar)).cons (.id (String.ofList (c :: word))) line
      else .error (.badSyntax line (.unexpectedCharacter c))
  termination_by text.length
  decreasing_by
    all_goals
      have := (List.dropWhile_sublist (l := rest) (· ≠ '\n')).length_le
      have := (List.dropWhile_sublist (l := rest) isWordChar).length_le
      simp_all
      try omega

/-- The tokens of a text. -/
def lex (text : String) : Except Error Tokens := lexFrom 1 true text.toList

end Dot
end PlaceRoute
