import PlaceRoute.Design.Basic
import PlaceRoute.Graph.Basic

/-!
# Decisions

A mapping is described by yes-or-no decisions, each with a `Key`: where operations are placed, which nets a node carries,
and which flow of a net. A `Model` gives values to keys.
-/

namespace PlaceRoute

/-- One decision about a mapping. -/
inductive Key where
  /-- The operation is placed on the unit. -/
  | place (unit : NodeId) (op : OpId)
  /-- The node carries the net of the value. -/
  | route (node : NodeId) (value : ValueId)
  /-- The node carries the value on its way to the terminal. -/
  | routeTo (node : NodeId) (value : ValueId) (terminal : Terminal)
  deriving DecidableEq, Repr, Inhabited

namespace Key

/-- Placements come first, then nets, then flows. -/
def rank : Key → Nat
  | place _ _ => 0
  | route _ _ => 1
  | routeTo _ _ _ => 2

/-- The node that the decision is about. -/
def node : Key → NodeId
  | place n _ => n
  | route n _ => n
  | routeTo n _ _ => n

/-- The operation or value that the decision is about. -/
def item : Key → Nat
  | place _ op => op
  | route _ v => v
  | routeTo _ v _ => v

/-- The terminal of a flow, and a fixed one for other decisions. -/
def target : Key → Terminal
  | routeTo _ _ t => t
  | _ => ⟨0, 0⟩

/-- Decisions by rank, node, item and terminal. -/
def order : Key → Key → Ordering :=
  compareLex (compareOn rank) (compareLex (compareOn node) (compareLex (compareOn item) (compareOn target)))

instance : Ord Key := ⟨order⟩

instance : Std.TransOrd Key := inferInstanceAs (Std.TransCmp
  (compareLex (compareOn rank) (compareLex (compareOn node) (compareLex (compareOn item) (compareOn target)))))

instance : Std.LawfulEqOrd Key where
  eq_of_compare {a b} h := by
    obtain ⟨hr, h⟩ := compareLex_eq_eq.mp h
    obtain ⟨hn, h⟩ := compareLex_eq_eq.mp h
    obtain ⟨hi, ht⟩ := compareLex_eq_eq.mp h
    have hr := Std.LawfulEqOrd.eq_of_compare (α := Nat) hr
    have hn := Std.LawfulEqOrd.eq_of_compare (α := Nat) hn
    have hi := Std.LawfulEqOrd.eq_of_compare (α := Nat) hi
    have ht := Std.LawfulEqOrd.eq_of_compare (α := Terminal) ht
    cases a <;> cases b <;> simp_all [rank, node, item, target]

/-- The text of a key. -/
def text : Key → String
  | place n op => s!"place[{n}, op{op}]"
  | route n v => s!"route[{n}, v{v}]"
  | routeTo n v t => s!"route_to[{n}, v{v}, op{t.op}:{t.operand}]"

end Key

/-- Values of decisions; a decision is taken when its value is one. -/
structure Model where
  values : Std.TreeMap Key Nat
  deriving Inhabited

namespace Model

/-- The model of a list of entries; of two for one key the later stands. -/
def ofList (entries : List (Key × Nat)) : Model := ⟨entries.foldl (fun m e => m.insert e.1 e.2) ∅⟩

/-- The value of a key. -/
def get? (m : Model) (k : Key) : Option Nat := m.values[k]?

/-- Whether a decision is taken. -/
def isSet (m : Model) (k : Key) : Bool := m.get? k == some 1

/-- The keys with a value other than zero, in order. -/
def setKeys (m : Model) : List Key := (m.values.toList.filter (·.2 ≠ 0)).map (·.1)

/-- The number of keys with a value. -/
def size (m : Model) : Nat := m.values.size

/-- Whether no key has a value. -/
def isEmpty (m : Model) : Bool := m.values.isEmpty

/-- The units that an operation is placed on, in order. -/
def hosts (m : Model) (g : Graph) (op : OpId) : List NodeId := g.units.filter fun u => m.isSet (.place u op)

end Model
end PlaceRoute
