import PlaceRoute.Mapping.Check
import PlaceRoute.Mapping.Encoder

/-!
# Counting used nodes

An `Objective` counts the nodes of a class that carry a net. `Objective.encode` builds the count as terms, in one of
four encodings, and `Count.window` bounds it. `Objective.eval` scores a model by the nodes on its paths, so flows
that are connected to no source do not count.
-/

namespace PlaceRoute

open PlaceRoute.Sat (Literal)
open Encoder (build checked bit)

/-- The nodes that an objective counts. -/
inductive NodeFilter where
  | mux
  | muxRegister
  /-- All nodes other than functional units. -/
  | routing
  deriving DecidableEq, Repr, Inhabited

/-- Whether a node is counted. -/
def NodeFilter.accepts (f : NodeFilter) (n : Node) : Bool :=
  match f with
  | mux => n.isMux
  | muxRegister => n.isMux || n.isRegister
  | routing => !n.isUnit

/-- The ways to count the true literals of a list. -/
inductive PopcountEncoding where
  /-- Adds one or zero for each literal. -/
  | ite
  /-- Adds each literal as a number. -/
  | zeroExtend
  /-- Adds neighbouring fields of a packed word in parallel. -/
  | bitHack
  /-- Says for each number whether so many literals are true. -/
  | shannon
  deriving DecidableEq, Repr, Inhabited

/-- What to minimise. -/
structure Objective where
  filter : NodeFilter
  encoding : PopcountEncoding
  deriving DecidableEq, Repr, Inhabited

/-- A count of literals as terms. -/
inductive Count where
  /-- The count as a number. -/
  | word (w : Word)
  /-- For each number from zero on, whether the count reaches it. -/
  | thresholds (atLeast : List Literal)
  deriving DecidableEq, Repr

/-- The number of binary digits of a number, none for zero. -/
def bitLength (n : Nat) : Nat := if n = 0 then 0 else Nat.log2 n + 1

namespace Count

/-- The literal by which a count reaches a number. -/
def reaches (atLeast : List Literal) (k : Nat) : Literal := atLeast.getD k Solver.ff

/-- The formula that the count is at least `lower` and below `upper`. -/
def window (c : Count) (lower upper : Nat) : CheckedM Literal := do
  if upper ≤ lower then pure Solver.ff
  else match c with
    | word w =>
      let width := max w.width (bitLength upper)
      let count := Solver.zeroExtend w (width - w.width)
      let above ← Solver.leWord (Solver.constWord width lower) count
      let below ← Solver.ltWord count (Solver.constWord width upper)
      Solver.and above below
    | thresholds atLeast => Solver.and (reaches atLeast lower) (-(reaches atLeast upper))

/-- The thresholds above the first one, with one more literal counted: a number is reached if it was before, or if
the number below was and the literal holds. -/
def raise (x : Literal) : List Literal → SolverM (List Literal)
  | below :: here :: above => do
    let above ← raise x (here :: above)
    let carried ← Solver.and below x
    let here ← Solver.or here carried
    pure (here :: above)
  | _ => pure []

/-- The thresholds of the number of true literals. -/
def thresholdsOf (bits : List Literal) : SolverM (List Literal) :=
  bits.foldlM (fun atLeast x => do return Solver.tt :: (← raise x (atLeast ++ [Solver.ff]))) [Solver.tt]

/-- The least power of two that is not below `n`. -/
def powerAbove (n : Nat) : Nat := Nat.pow 2 (bitLength (n - 1))

/-- `group` ones, then `group` zeros, and so on from the least significant bit. -/
def mask (width group : Nat) : Word := (List.range width).map fun i => Solver.ofBool (i / group % 2 == 0)

/-- The field sizes from four on that are smaller than the word. -/
def groups (width : Nat) : List Nat := ((List.range (bitLength width)).map (4 * Nat.pow 2 ·)).filter (· < width)

/-- The number of true bits of a word whose width is a power of two, by adding neighbouring fields of one, two, four
and more bits. -/
def sumFields (v : Word) : CheckedM Word := do
  let pairs ← Solver.andWord (Solver.shiftRight v 1) (mask v.width 1)
  let x ← Solver.subWord v pairs
  let x ← if 4 ≤ v.width then do
      let low ← Solver.andWord x (mask v.width 2)
      let high ← Solver.andWord (Solver.shiftRight x 2) (mask v.width 2)
      Solver.addWord low high
    else pure x
  (groups v.width).foldlM (fun x group => do
    let sum ← Solver.addWord x (Solver.shiftRight x group)
    Solver.andWord sum (mask v.width group)) x

/-- The count of a list of literals as a sum of `width` bits, and terms that pin helper words of the sum. -/
def sumOf (encoding : PopcountEncoding) (width : Nat) (bits : List Literal) : EncodeM (List Literal × Word) := do
  let zero := Solver.constWord width 0
  match encoding with
  | .bitHack =>
    let packed ← Encoder.anonymous bits.length
    let pins ← build (Solver.zipBits Solver.iff packed bits)
    let padded := powerAbove (max bits.length 1)
    let x ← checked (sumFields (packed ++ List.replicate (padded - bits.length) Solver.ff))
    match Solver.extract x (width - 1) 0 with
    | .ok sum => pure (pins, sum)
    | .error e => throw (.solver e)
  | .ite =>
    let sum ← bits.foldlM (fun sum b => do
      let term ← checked (Solver.iteWord b (Solver.constWord width 1) zero)
      checked (Solver.addWord sum term)) zero
    pure ([], sum)
  | _ =>
    let sum ← bits.foldlM (fun sum b =>
      checked (Solver.addWord sum (Solver.zeroExtend [b] (width - 1)))) zero
    pure ([], sum)

/-- The count of a list of literals, and the formula that has to hold for it to be the count. -/
def encode (encoding : PopcountEncoding) (bits : List Literal) : EncodeM (Literal × Count) := do
  match encoding with
  | .shannon =>
    let atLeast ← build (thresholdsOf bits)
    pure (Solver.tt, .thresholds atLeast)
  | _ =>
    let width := max (bitLength bits.length) 1
    let (pins, sum) ← sumOf encoding width bits
    let count ← Encoder.anonymous width
    let same ← checked (Solver.eqWord count sum)
    let defined ← build (Solver.andAll (pins ++ [same]))
    pure (defined, .word count)

end Count

namespace Objective

/-- The nodes that an objective counts. -/
def countedNodes (o : Objective) (g : Graph) : List NodeId :=
  (g.nodes.toList.filter o.filter.accepts).map (·.id)

/-- The count of the nodes that carry a net, and the formula that defines it. -/
def encode (o : Objective) (g : Graph) (d : Design) : EncodeM (Literal × Count) := do
  let used ← (o.countedNodes g).mapM fun n => do
    let routes ← d.values.mapM fun v => bit (.route n v.id)
    build (Solver.orAll routes)
  Count.encode o.encoding used

/-- The counted nodes on the paths of a model. -/
def eval (o : Objective) (g : Graph) (d : Design) (m : Model) : Except CheckError Nat := do
  let paths ← m.tracePaths g d
  let used := SortedSet.ofList (paths.flatMap (·.nodes))
  pure (used.toList.countP fun n => (g.node? n).any o.filter.accepts)

/-- The counted nodes that carry a net in a model, connected or not. -/
def rawCount (o : Objective) (g : Graph) (d : Design) (m : Model) : Nat :=
  (o.countedNodes g).countP fun n => d.values.any fun v => m.isSet (.route n v.id)

/-- The text of a failure to score a model. -/
def scoreMessage (e : CheckError) : String := s!"cannot score model: {e.message}"

end Objective
end PlaceRoute
