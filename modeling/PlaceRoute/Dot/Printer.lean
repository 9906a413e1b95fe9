import PlaceRoute.Dot.Netlist

/-!
# Writing netlists

`Netlist.print` writes a netlist as one `digraph`: a line for each operation, in the order of their names, and a line for
each tie. Names and opcodes stand in quotes, and a quote in them follows a backslash.
-/

namespace PlaceRoute
namespace Dot

/-- A character of a quoted text. -/
def escape (c : Char) : List Char := if c = '"' then ['\\', '"'] else [c]

/-- A text in quotes. -/
def quoted (text : String) : List Char := '"' :: text.toList.flatMap escape ++ ['"']

/-- The line that declares an operation. -/
def operationLine (name opcode : String) : List Char :=
  [' ', ' '] ++ quoted name ++ " [opcode=".toList ++ quoted opcode ++ "];\n".toList

/-- The line that makes a tie. -/
def tieLine (tie : NamedTie) : List Char :=
  [' ', ' '] ++ quoted tie.src ++ " -> ".toList ++ quoted tie.dst ++ " [operand=".toList ++
    tie.operand.repr.toList ++ "];\n".toList

/-- The lines between the braces. -/
def Netlist.body (n : Netlist) : List Char :=
  (n.operations.toList.flatMap fun e => operationLine e.1 e.2) ++ n.ties.flatMap tieLine

/-- The text of a netlist. -/
def Netlist.print (n : Netlist) : String := String.ofList ("digraph \x7b\n".toList ++ n.body ++ "\x7d\n".toList)

end Dot
end PlaceRoute
