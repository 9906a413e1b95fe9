import PlaceRoute.Solver.Basic

/-!
# Bit vectors

A `Word` is the list of its bits, least significant first, and stands for the number `Word.toNat`. Operations on two
words want equal widths and fail before they change the solver.
-/

namespace PlaceRoute

open PlaceRoute.Sat (Literal Assignment)

/-- A bit vector: its bits, least significant first. -/
abbrev Word := List Literal

namespace Word

/-- The number of bits. -/
abbrev width (w : Word) : Nat := w.length

/-- The number that a word stands for under an assignment. -/
def toNat (a : Assignment) : Word → Nat
  | [] => 0
  | l :: w => (if l.eval a then 1 else 0) + 2 * toNat a w

end Word

namespace Solver

/-- An unconstrained word. -/
def freshWord : Nat → SolverM Word
  | 0 => pure []
  | n + 1 => do
    let l ← fresh
    let w ← freshWord n
    pure (l :: w)

/-- The `width` lowest bits of a number. -/
def constWord (width value : Nat) : Word := (List.range width).map fun i => ofBool (value.testBit i)

/-- Fails unless the widths are equal. -/
def requireSameWidth (a b : Word) : CheckedM Unit :=
  if a.width = b.width then pure () else throw (.widthMismatch a.width b.width)

/-- Combines two words bit by bit. -/
def zipBits (f : Literal → Literal → SolverM Literal) : Word → Word → SolverM Word
  | x :: a, y :: b => do
    let z ← f x y
    let w ← zipBits f a b
    pure (z :: w)
  | _, _ => pure []

/-- Combines two words of one width bit by bit. -/
def zipWord (f : Literal → Literal → SolverM Literal) (a b : Word) : CheckedM Word := do
  requireSameWidth a b
  zipBits f a b

/-- Bitwise negation. -/
def notWord (a : Word) : Word := a.map fun l => -l

/-- Bitwise conjunction. -/
def andWord : Word → Word → CheckedM Word := zipWord and

/-- Bitwise disjunction. -/
def orWord : Word → Word → CheckedM Word := zipWord or

/-- Bitwise exclusive disjunction. -/
def xorWord : Word → Word → CheckedM Word := zipWord xor

/-- Addition bit by bit, with a carry that starts as given; the last carry is dropped. -/
def addBits : Word → Word → Literal → SolverM Word
  | x :: a, y :: b, carry => do
    let half ← xor x y
    let sum ← xor half carry
    let both ← and x y
    let propagated ← and half carry
    let carry ← or both propagated
    let w ← addBits a b carry
    pure (sum :: w)
  | _, _, _ => pure []

/-- Addition modulo the width. -/
def addWord (a b : Word) : CheckedM Word := do
  requireSameWidth a b
  addBits a b ff

/-- Subtraction modulo the width. -/
def subWord (a b : Word) : CheckedM Word := do
  requireSameWidth a (notWord b)
  addBits a (notWord b) tt

/-- Division by a power of two, which is what `shiftRight?` gives as long as its positions are machine numbers. -/
def shiftRight (a : Word) (n : Nat) : Word := a.drop n ++ List.replicate (min n a.width) ff

/-- The shift to the right by a machine number. Bit `i` is the one at `i + n`, and this sum is not checked before: where it
passes the machine numbers there is no word, since the program breaks off. -/
def shiftRight? (a : Word) (n : UInt64) : Option Word :=
  (List.range a.width).mapM fun i => if i + n.toNat < UInt64.size then some (a.getD (i + n.toNat) ff) else none

/-- Multiplication by a power of two, modulo the width. -/
def shiftLeft (a : Word) (n : Nat) : Word := List.replicate (min n a.width) ff ++ a.take (a.width - n)

/-- The word with `hi` above `lo`. -/
def concat (hi lo : Word) : Word := lo ++ hi

/-- The bits from `lo` to `hi`, both included. -/
def extract (a : Word) (hi lo : Nat) : Except Solver.Error Word :=
  if hi < lo ∨ a.width ≤ hi then .error (.outOfRange hi lo a.width)
  else .ok ((a.drop lo).take (hi + 1 - lo))

/-- The word with `n` more zero bits on top. -/
def zeroExtend (a : Word) (n : Nat) : Word := a ++ List.replicate n ff

/-- Choice between two words. -/
def iteWord (cond : Literal) : Word → Word → CheckedM Word := zipWord (ite cond)

/-- Equality. -/
def eqWord (a b : Word) : CheckedM Literal := do
  let same ← zipWord iff a b
  andAll same

/-- Comparison from the least significant bit on; `less` compares the bits below. -/
def lessBits : Word → Word → Literal → SolverM Literal
  | x :: a, y :: b, less => do
    let here ← and (-x) y
    let same ← iff x y
    let carried ← and same less
    let less ← or here carried
    lessBits a b less
  | _, _, less => pure less

/-- Unsigned less. -/
def ltWord (a b : Word) : CheckedM Literal := do
  requireSameWidth a b
  lessBits a b ff

/-- Unsigned less or equal. -/
def leWord (a b : Word) : CheckedM Literal := do
  let greater ← ltWord b a
  pure (-greater)

/-- Equality with zero. -/
def isZero (a : Word) : SolverM Literal := andAll (notWord a)

end Solver
end PlaceRoute
