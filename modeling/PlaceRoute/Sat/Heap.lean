/-!
# A heap of variables

The variables that wait for a decision, heaviest first: a binary heap that knows the place of each variable, so that a
variable can gain weight or leave while it waits. No variable passes another one of its weight.
-/

namespace PlaceRoute
namespace Sat

/-- Variables below a bound, with weights, some of them on a heap. -/
structure Heap where
  /-- The waiting variables, none heavier than the one at half its place. -/
  line : Array Nat
  /-- For each variable its place in the line. -/
  place : Array (Option Nat)
  /-- For each variable its weight. -/
  weight : Array Nat
  /-- What a variable gains next. -/
  gain : Nat

namespace Heap

/-- No variable waits, and all have one weight. -/
def empty (n : Nat) : Heap where
  line := #[]
  place := Array.replicate n none
  weight := Array.replicate n 0
  gain := 1 <<< 20

/-- The weight at a place of the line; beyond its end there is none. -/
def weightAt (h : Heap) (i : Nat) : Nat := h.line[i]?.elim 0 fun v => h.weight.getD v 0

/-- The variables at two places trade them. -/
def swap (h : Heap) (i j : Nat) : Heap :=
  let v := h.line.getD i 0
  let w := h.line.getD j 0
  { h with
    line := h.line.swapIfInBounds i j
    place := (h.place.setIfInBounds v (some j)).setIfInBounds w (some i) }

@[simp] theorem size_swap (h : Heap) (i j : Nat) : (h.swap i j).line.size = h.line.size :=
  Array.size_swapIfInBounds

/-- Moves the variable at a place up, past all that are lighter. -/
def siftUp (h : Heap) (i : Nat) : Heap :=
  if _ : 0 < i then
    let parent := (i - 1) / 2
    if h.weightAt parent < h.weightAt i then (h.swap parent i).siftUp parent else h
  else h
termination_by i

/-- The heavier one of two places, the first one where they weigh the same. -/
def heavier (h : Heap) (i j : Nat) : Nat := if j < h.line.size ∧ h.weightAt i < h.weightAt j then j else i

/-- Moves the variable at a place down, below all that are heavier. -/
def siftDown (h : Heap) (i : Nat) : Heap :=
  let child := h.heavier (h.heavier i (2 * i + 1)) (2 * i + 2)
  if _ : i < child ∧ child < h.line.size then (h.swap i child).siftDown child else h
termination_by h.line.size - i
decreasing_by rw [size_swap]; omega

/-- A variable waits, from now on. -/
def insert (h : Heap) (v : Nat) : Heap :=
  match h.place.getD v none with
  | some _ => h
  | none =>
    let i := h.line.size
    siftUp { h with line := h.line.push v, place := h.place.setIfInBounds v (some i) } i

/-- A variable waits no longer; the last one of the line takes its place. -/
def erase (h : Heap) (v : Nat) : Heap :=
  match h.place.getD v none with
  | none => h
  | some i =>
    let h := h.swap i (h.line.size - 1)
    let h := { h with line := h.line.pop, place := h.place.setIfInBounds v none }
    (h.siftUp i).siftDown i

/-- The heaviest variable of the line, which waits no longer. -/
def pop? (h : Heap) : Option (Nat × Heap) := h.line[0]?.map fun v => (v, h.erase v)

/-- A variable gains weight. -/
def bump (h : Heap) (v : Nat) : Heap :=
  let gain := h.gain
  let h := { h with weight := h.weight.modify v (· + gain) }
  match h.place.getD v none with
  | some i => h.siftUp i
  | none => h

/-- Later gains count for more than earlier ones. All weights are scaled down before they grow large. -/
def age (h : Heap) : Heap :=
  let gain := h.gain * 20 / 19
  if gain < 1 <<< 50 then { h with gain }
  else { h with gain := gain >>> 30, weight := h.weight.map (· >>> 30) }

end Heap

end Sat
end PlaceRoute
