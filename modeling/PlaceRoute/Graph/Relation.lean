import PlaceRoute.Sorted.Map

/-!
# Finite relations over declared keys

A `Relation` relates declared keys to values and answers questions from both sides. It stores each pair twice, under
its key and under its value, and keeps no key or value without a partner. `pairs` is the relation as a list.
-/

namespace PlaceRoute

/-- A finite relation between declared keys and values, indexed from both sides. -/
structure Relation (κ ν : Type) [Ord κ] [Ord ν] where
  /-- The keys that may be used. -/
  keys : SortedSet κ
  /-- The values of each key that has some. -/
  forward : SortedMap κ (SortedSet ν)
  /-- The keys of each value that has some. -/
  inverse : SortedMap ν (SortedSet κ)

namespace Relation

/-- Reasons why a pair is refused. -/
inductive Error where
  | undeclaredKey
  deriving DecidableEq, Repr

/-- The text of a refusal. -/
def Error.message : Error → String
  | undeclaredKey => "insert into undeclared port"

section
variable {κ ν : Type} [Ord κ] [Ord ν]

/-- The empty relation over some keys. -/
def new (keys : SortedSet κ) : Relation κ ν := ⟨keys, ∅, ∅⟩

instance : Inhabited (Relation κ ν) := ⟨new ∅⟩

/-- All pairs, by key and then by value. -/
def pairs (r : Relation κ ν) : List (κ × ν) :=
  r.forward.toList.flatMap fun (k, vs) => vs.toList.map (k, ·)

/-- The number of pairs. -/
def size (r : Relation κ ν) : Nat := r.forward.values.foldl (fun total vs => total + vs.size) 0

/-- Whether there is no pair. -/
def isEmpty (r : Relation κ ν) : Bool := r.forward.isEmpty

variable [DecidableEq κ] [DecidableEq ν]

/-- Whether `k` was declared. -/
def declares (r : Relation κ ν) (k : κ) : Bool := decide (k ∈ r.keys)

/-- Whether `k` has a value. -/
def containsKey (r : Relation κ ν) (k : κ) : Bool := r.forward.contains k

/-- The values of `k` in order. -/
def valuesOf (r : Relation κ ν) (k : κ) : List ν := ((r.forward.get? k).getD ∅).toList

/-- The keys of `v` in order. -/
def keysOf (r : Relation κ ν) (v : ν) : List κ := ((r.inverse.get? v).getD ∅).toList

variable [Std.TransOrd κ] [Std.LawfulEqOrd κ] [Std.TransOrd ν] [Std.LawfulEqOrd ν]

/-- Adds a pair whose key is declared. -/
def add (r : Relation κ ν) (k : κ) (v : ν) : Relation κ ν where
  keys := r.keys
  forward := r.forward.alter k fun vs => (vs.getD ∅).insert v
  inverse := r.inverse.alter v fun ks => (ks.getD ∅).insert k

/-- Adds a pair, or refuses an undeclared key. -/
def insert (r : Relation κ ν) (k : κ) (v : ν) : Except Error (Relation κ ν) :=
  if r.declares k then .ok (r.add k v) else .error .undeclaredKey

/-- Takes `y` out of the set at `x`, and `x` out of the map when nothing else is there. -/
def detach {α β : Type} [Ord α] [DecidableEq α] [Std.TransOrd α] [Std.LawfulEqOrd α] [Ord β] [DecidableEq β]
    (m : SortedMap α (SortedSet β)) (x : α) (y : β) : SortedMap α (SortedSet β) :=
  match m.get? x with
  | none => m
  | some ys => if (ys.erase y).isEmpty then m.erase x else m.insert x (ys.erase y)

/-- Removes a pair and says whether it was there. -/
def remove (r : Relation κ ν) (k : κ) (v : ν) : Bool × Relation κ ν :=
  if v ∈ r.valuesOf k then (true, ⟨r.keys, detach r.forward k v, detach r.inverse v k⟩) else (false, r)

/-- The relation with `f` applied to every value, or the first failure in the order of `pairs`; `refuse` turns the refusal of
a pair into a failure. -/
def mapValues {ε ω : Type} [Ord ω] [DecidableEq ω] [Std.TransOrd ω] [Std.LawfulEqOrd ω] (r : Relation κ ν)
    (refuse : Error → ε) (f : ν → Except ε ω) : Except ε (Relation κ ω) :=
  r.pairs.foldlM (fun out (k, v) => do (out.insert k (← f v)).mapError refuse) (new r.keys)

end
end Relation
end PlaceRoute
