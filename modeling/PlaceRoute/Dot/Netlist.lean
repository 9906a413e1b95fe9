import PlaceRoute.Design.Basic
import PlaceRoute.Dot.Lexer
import PlaceRoute.Text

/-!
# Netlists in DOT

A netlist is one `digraph` of statements. A node statement declares an operation by its `opcode` attribute, a chain of
arrows makes a tie for each step with the `operand` attribute, and default attributes and settings are read over.
`Netlist.ofTokens` reads tokens, and `Design.ofDot` goes from text to design. Each reading function returns the tokens
that it left, with a proof that there are fewer.
-/

namespace PlaceRoute
namespace Dot

/-- Attributes in the order that they are written. -/
abbrev Attributes := List (String × String)

/-- The value of an attribute; of several the last stands. -/
def Attributes.get? (attributes : Attributes) (name : String) : Option String :=
  List.lookup name attributes.reverse

/-- One statement of a graph. -/
inductive Statement where
  /-- Attributes for all that follows. -/
  | defaults
  /-- An attribute of the graph itself. -/
  | setting (name value : String)
  /-- A node, or a chain of nodes with arrows between them. -/
  | chain (first : String) (rest : List String) (attributes : Attributes)

/-- What the statements of a graph declare. -/
structure Netlist where
  /-- The opcodes of the operations. -/
  operations : SortedMap String String
  /-- The ties in the order of their arrows. -/
  ties : List NamedTie

/-- The number that an operand attribute names: digits, with an optional plus, below `2 ^ 32`. -/
def readOperand? (text : String) : Option Nat :=
  let digits := match text.toList with
    | '+' :: digits => digits
    | digits => digits
  if digits.isEmpty ∨ !digits.all Char.isDigit then none
  else
    let n := Text.numberOf 10 digits
    if n < UInt32.size then some n else none

/-- What a netlist becomes by a statement. -/
def Netlist.execute (n : Netlist) : Statement → Except Error Netlist
  | .defaults => .ok n
  | .setting _ _ => .ok n
  | .chain name [] attributes =>
    match attributes.get? "opcode" with
    | none => .error (.missingOpcode name)
    | some opcode =>
      if n.operations.contains name then .error (.duplicateOperation name)
      else .ok { n with operations := n.operations.insert name opcode }
  | .chain first (second :: rest) attributes =>
    match (attributes.get? "operand").bind readOperand? with
    | none => .error (.missingOperand first second)
    | some operand =>
      let steps := (first :: second :: rest).zip (second :: rest)
      .ok { n with ties := n.ties ++ steps.map fun (src, dst) => ⟨src, dst, operand⟩ }

section
/- The line that the text ends on. -/
variable (endLine : Nat)

/-- The next token. -/
def current (ts : List Located) : Option Token := ts.head?.map (·.token)

/-- Whether the next token is the given word, in any mixture of cases. -/
def atKeyword (word : String) (ts : List Located) : Bool :=
  match current ts with
  | some (.id text) => text.toList.map Char.toLower == word.toList
  | _ => false

/-- A syntax error at the next token. -/
def refuse {α : Type} (ts : List Located) (cause : SyntaxError) : Except Error α :=
  .error (.badSyntax ((ts.head?.map (·.line)).getD endLine) cause)

/-- The tokens after an optional one. -/
def skip (token : Token) (ts : List Located) : List Located := if current ts = some token then ts.tail else ts

theorem length_skip_le (token : Token) (ts : List Located) : (skip token ts).length ≤ ts.length := by
  rw [skip]; split <;> simp

/-- An identifier. -/
def identifier (ts : List Located) : Except Error (String × { rest : List Located // rest.length < ts.length }) :=
  match ts with
  | ⟨.id text, _⟩ :: rest => .ok (text, ⟨rest, by simp⟩)
  | _ => refuse endLine ts (.expectedIdentifier (current ts))

/-- An attribute, with an optional comma or semicolon after it. -/
def attributePair (ts : List Located) :
    Except Error ((String × String) × { rest : List Located // rest.length < ts.length }) := do
  let (name, ⟨afterName, hn⟩) ← identifier endLine ts
  if current afterName ≠ some .equals then refuse endLine afterName (.expectedEquals (current afterName))
  let (value, ⟨afterValue, hv⟩) ← identifier endLine afterName.tail
  let rest := if current afterValue = some .comma then afterValue.tail else skip .semicolon afterValue
  have : rest.length ≤ afterValue.length := by
    have := length_skip_le .semicolon afterValue
    simp only [rest]; split <;> simp <;> omega
  pure ((name, value), ⟨rest, by simp at hv; omega⟩)

/-- The attributes up to a closing bracket. -/
def attributeList (ts : List Located) :
    Except Error (Attributes × { rest : List Located // rest.length ≤ ts.length }) :=
  match ts with
  | ⟨.rbracket, _⟩ :: rest => .ok ([], ⟨rest, by simp⟩)
  | ts => do
    let (pair, ⟨afterPair, hp⟩) ← attributePair endLine ts
    let (pairs, ⟨rest, hr⟩) ← attributeList afterPair
    pure (pair :: pairs, ⟨rest, by omega⟩)
  termination_by ts.length

/-- Any number of bracketed lists of attributes. -/
def attributeLists (ts : List Located) :
    Except Error (Attributes × { rest : List Located // rest.length ≤ ts.length }) :=
  match ts with
  | ⟨.lbracket, _⟩ :: inside => do
    let (pairs, ⟨outside, ho⟩) ← attributeList endLine inside
    let (more, ⟨rest, hr⟩) ← attributeLists outside
    pure (pairs ++ more, ⟨rest, by simp; omega⟩)
  | ts => .ok ([], ⟨ts, Nat.le_refl _⟩)
  termination_by ts.length
  decreasing_by simp; omega

/-- Any number of arrows, each with the identifier that it points to. -/
def arrows (ts : List Located) :
    Except Error (List String × { rest : List Located // rest.length ≤ ts.length }) :=
  match ts with
  | ⟨.arrow, _⟩ :: afterArrow => do
    let (name, ⟨afterName, hn⟩) ← identifier endLine afterArrow
    let (names, ⟨rest, hr⟩) ← arrows afterName
    pure (name :: names, ⟨rest, by simp; omega⟩)
  | ⟨.undirectedEdge, _⟩ :: _ => refuse endLine ts .undirectedEdge
  | ts => .ok ([], ⟨ts, Nat.le_refl _⟩)
  termination_by ts.length
  decreasing_by simp; omega

/-- One statement. -/
def statement (ts : List Located) :
    Except Error (Statement × { rest : List Located // rest.length < ts.length }) := do
  let (first, ⟨afterFirst, hf⟩) ←
    if atKeyword "subgraph" ts ∨ current ts = some .lbrace then refuse endLine ts .subgraph
    else identifier endLine ts
  if atKeyword "graph" ts ∨ atKeyword "node" ts ∨ atKeyword "edge" ts then
    let (_, ⟨rest, hr⟩) ← attributeLists endLine afterFirst
    pure (.defaults, ⟨rest, by omega⟩)
  else if current afterFirst = some .equals then
    let (value, ⟨rest, hr⟩) ← identifier endLine afterFirst.tail
    pure (.setting first value, ⟨rest, by simp at hr; omega⟩)
  else
    let (names, ⟨afterNames, hn⟩) ← arrows endLine afterFirst
    let (attributes, ⟨rest, hr⟩) ← attributeLists endLine afterNames
    pure (.chain first names attributes, ⟨rest, by omega⟩)

/-- The statements up to the closing brace, each executed as it is read, and the tokens after the brace. -/
def statements (n : Netlist) (ts : List Located) : Except Error (Netlist × List Located) :=
  match ts with
  | ⟨.rbrace, _⟩ :: rest => .ok (n, rest)
  | [] => refuse endLine [] .expectedClosingBrace
  | ts => do
    let (s, ⟨rest, _⟩) ← statement endLine ts
    let n ← n.execute s
    have := length_skip_le .semicolon rest
    statements n (skip .semicolon rest)
  termination_by ts.length

end

/-- The netlist of a whole text: an optional `strict`, `digraph`, an optional name, and statements in braces. -/
def Netlist.ofTokens (text : Tokens) : Except Error Netlist := do
  let ts := if atKeyword "strict" text.tokens then text.tokens.tail else text.tokens
  if !atKeyword "digraph" ts then refuse text.endLine ts .expectedDigraph
  let ts := match ts.tail with
    | ⟨.id _, _⟩ :: rest => rest
    | ts => ts
  if current ts ≠ some .lbrace then refuse text.endLine ts (.expectedOpeningBrace (current ts))
  let (n, rest) ← statements text.endLine ⟨∅, []⟩ ts.tail
  if !rest.isEmpty then refuse text.endLine rest .trailingInput
  pure n

end Dot

/-- Reasons why a text gives no design. -/
inductive Design.LoadError where
  | dot (e : Dot.Error)
  | design (e : Design.Error)
  deriving DecidableEq, Repr

/-- The text of a failure. -/
def Design.LoadError.message : Design.LoadError → String
  | dot e => e.message
  | design e => e.message

/-- The design that a DOT text describes. -/
def Design.ofDot (text : String) (duplicates : SortedSet String) : Except Design.LoadError Design := do
  let tokens ← (Dot.lex text).mapError .dot
  let netlist ← (Dot.Netlist.ofTokens tokens).mapError .dot
  (Design.new netlist.operations netlist.ties duplicates).mapError .design

end PlaceRoute
