import PlaceRoute.Text

/-!
# Tokens of netlist text

The tokens of the DOT language and the failures that reading DOT text can end in.
-/

namespace PlaceRoute
namespace Dot

/-- A token; identifiers stand for bare words, numerals and quoted strings alike. -/
inductive Token where
  | id (text : String)
  | arrow
  | undirectedEdge
  | lbrace
  | rbrace
  | lbracket
  | rbracket
  | equals
  | semicolon
  | comma
  deriving DecidableEq, Repr

/-- A token and the line that it starts on. -/
structure Located where
  token : Token
  line : Nat
  deriving DecidableEq, Repr

/-- All tokens of a text, and the line that the text ends on. -/
structure Tokens where
  tokens : List Located
  endLine : Nat
  deriving DecidableEq, Repr

/-- The name of a token in messages; `none` is the end of the text. -/
def Token.describe : Option Token → String
  | none => "Eof"
  | some (.id text) => "Id(" ++ Text.quote text ++ ")"
  | some .arrow => "Arrow"
  | some .undirectedEdge => "UndirectedEdge"
  | some .lbrace => "LBrace"
  | some .rbrace => "RBrace"
  | some .lbracket => "LBracket"
  | some .rbracket => "RBracket"
  | some .equals => "Equals"
  | some .semicolon => "Semicolon"
  | some .comma => "Comma"

/-- What a text does wrong. -/
inductive SyntaxError where
  | unterminatedComment
  | unterminatedString
  | unexpectedCharacter (c : Char)
  | expectedDigraph
  | expectedOpeningBrace (found : Option Token)
  | expectedClosingBrace
  | trailingInput
  | subgraph
  | undirectedEdge
  | expectedIdentifier (found : Option Token)
  | expectedEquals (found : Option Token)
  deriving DecidableEq, Repr

/-- The text of a syntax error, without its line. -/
def SyntaxError.message : SyntaxError → String
  | unterminatedComment => "unterminated block comment"
  | unterminatedString => "unterminated string"
  | unexpectedCharacter c => "unexpected character '" ++ c.toString ++ "'"
  | expectedDigraph => "expected 'digraph'"
  | expectedOpeningBrace found => "expected '\x7b', found " ++ Token.describe found
  | expectedClosingBrace => "expected '\x7d'"
  | trailingInput => "trailing input after graph"
  | subgraph => "subgraphs are not supported"
  | undirectedEdge => "undirected edge in digraph"
  | expectedIdentifier found => "expected identifier, found " ++ Token.describe found
  | expectedEquals found => "expected '=', found " ++ Token.describe found

/-- Reasons why a text holds no netlist. -/
inductive Error where
  | badSyntax (line : Nat) (cause : SyntaxError)
  | duplicateOperation (name : String)
  | missingOpcode (name : String)
  | missingOperand (src dst : String)
  deriving DecidableEq, Repr

/-- The text of a failure. -/
def Error.message : Error → String
  | badSyntax line cause => s!"syntax error on line {line}: " ++ cause.message
  | duplicateOperation name => s!"operation '{name}' declared more than once"
  | missingOpcode name => s!"operation '{name}' has no opcode"
  | missingOperand src dst => s!"edge {src} -> {dst} needs an integer 'operand' attribute"

end Dot
end PlaceRoute
