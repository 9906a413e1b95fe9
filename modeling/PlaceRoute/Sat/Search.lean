import PlaceRoute.Sat.Exhaustive
import PlaceRoute.Sat.Heap
import PlaceRoute.Sat.Resolution

/-!
# Search with learned clauses

`conflictDriven` decides formulas by propagation, decisions, learned clauses and restarts. Every learned clause is
made by `Coded.resolve` from clauses that are there already, so a refutation holds whatever the search did to find it,
and a model is evaluated before it is given out. When the search gives up, `exhaustive` answers. The engine is
correct: `conflictDriven_isCorrect`.
-/

namespace PlaceRoute
namespace Sat

/-- The state of a search. Literals stand as codes; a clause stands for revisiting with the codes that it watches. -/
structure Search where
  /-- All clauses, first those of the formula. -/
  clauses : Array (List Nat)
  /-- One watched code for each clause. -/
  first : Array Nat
  /-- The other watched code for each clause. -/
  second : Array Nat
  /-- For each code the clauses that watch it. -/
  watchers : Array (Array Nat)
  /-- For each code whether it is true. -/
  holds : Array Bool
  /-- For each variable the decision level of its value. -/
  level : Array Nat
  /-- For each variable its place on the trail. -/
  place : Array Nat
  /-- For each variable the clause that forced its value, if one did. -/
  reason : Array (Option Nat)
  /-- For each variable the value that it had last. -/
  phase : Array Bool
  /-- The codes made true, in order. -/
  trail : Array Nat
  /-- How much of the trail has been propagated. -/
  done : Nat
  /-- The lengths of the trail at the open decisions, innermost first. -/
  marks : List Nat
  /-- The variables that wait for a decision, those that took part in recent conflicts first; every variable without a
  value waits. -/
  waiting : Heap
  /-- How much of the trail can no longer be taken back; these variables do not wait. -/
  fixed : Nat

/-- What a search found. -/
inductive Verdict where
  | model (a : Assignment)
  | refuted
  | gaveUp

namespace Search

/-- The state before the first clause, over the variables below `n`. -/
def empty (n : Nat) : Search where
  clauses := #[]
  first := #[]
  second := #[]
  watchers := Array.replicate (2 * n) #[]
  holds := Array.replicate (2 * n) false
  level := Array.replicate n 0
  place := Array.replicate n 0
  reason := Array.replicate n none
  phase := Array.replicate n false
  trail := #[]
  done := 0
  marks := []
  waiting := (List.range n).foldl .insert (.empty n)
  fixed := 0

/-- Whether the code is true. -/
@[inline] def isTrue (s : Search) (k : Nat) : Bool := s.holds.getD k false

/-- Whether the code is false. -/
@[inline] def isFalse (s : Search) (k : Nat) : Bool := s.holds.getD (Coded.flip k) false

/-- The clause with index `i`; where there is none, one that always holds. -/
@[inline] def clause (s : Search) (i : Nat) : List Nat := s.clauses.getD i [0, 1]

/-- Makes a code true on the current level. -/
def assign (s : Search) (k : Nat) (reason : Option Nat) : Search :=
  { s with
    holds := s.holds.setIfInBounds k true
    level := s.level.setIfInBounds (k / 2) s.marks.length
    place := s.place.setIfInBounds (k / 2) s.trail.size
    reason := s.reason.setIfInBounds (k / 2) reason
    trail := s.trail.push k }

/-- Adds a clause that watches its first two codes. -/
def addClause (s : Search) (c : List Nat) : Search :=
  match c with
  | j :: k :: _ =>
    { s with
      clauses := s.clauses.push c
      first := s.first.push j
      second := s.second.push k
      watchers := (s.watchers.modify j (·.push s.clauses.size)).modify k (·.push s.clauses.size) }
  | _ => { s with clauses := s.clauses.push c, first := s.first.push 0, second := s.second.push 0 }

/-- Revisits the last `n` of the clauses that watched the false code `k`. Those that watch it still are kept; the
first clause without a true or open code ends the visit. -/
def visit (k : Nat) (ws : Array Nat) : Nat → Array Nat → Search → Search × Array Nat × Option Nat
  | 0, kept, s => (s, kept, none)
  | n + 1, kept, s =>
    let i := ws.getD (ws.size - (n + 1)) 0
    let isFirst := s.first.getD i 0 == k
    let other := if isFirst then s.second.getD i 0 else s.first.getD i 0
    if s.isTrue other then visit k ws n (kept.push i) s
    else match (s.clause i).find? fun j => j != other && !s.isFalse j with
      | some j =>
        let s :=
          if isFirst then { s with first := s.first.setIfInBounds i j }
          else { s with second := s.second.setIfInBounds i j }
        visit k ws n kept { s with watchers := s.watchers.modify j (·.push i) }
      | none =>
        if s.isFalse other then (s, kept ++ ws.extract (ws.size - (n + 1)) ws.size, some i)
        else visit k ws n (kept.push i) (s.assign other (some i))

/-- Draws all conclusions from the trail, at most `fuel` steps; the result names a clause that became false. -/
def propagate : Nat → Search → Search × Option Nat
  | 0, s => (s, none)
  | fuel + 1, s =>
    if h : s.done < s.trail.size then
      let k := Coded.flip s.trail[s.done]
      let ws := s.watchers.getD k #[]
      let (s, kept, conflict) :=
        visit k ws ws.size #[] { s with watchers := s.watchers.setIfInBounds k #[], done := s.done + 1 }
      let s := { s with watchers := s.watchers.setIfInBounds k kept }
      match conflict with
      | some i => (s, some i)
      | none => propagate fuel s
    else (s, none)

/-- The place on the trail of a code's variable. -/
def rank (s : Search) (k : Nat) : Nat := s.place.getD (k / 2) 0

/-- A clause with its latest codes first. -/
def byRank (s : Search) (c : List Nat) : List Nat :=
  c.foldl (fun c k => Coded.insertByRank s.rank k c) []

/-- Whether the codes behind a clause's first, latest first, all stand below the level `lowest`. -/
def leaves (s : Search) (lowest : Nat) : List Nat → Bool
  | j :: _ => s.level.getD (j / 2) 0 < lowest
  | [] => 0 < lowest

/-- Resolves a false clause with the reasons of its latest codes, until only one code of the level `lowest` or above
is left, or none. The variables met are listed as well. -/
def analyze (s : Search) (lowest : Nat) : Nat → List Nat → List Nat → Option (List Nat × List Nat)
  | 0, _, _ => none
  | _ + 1, met, [] => some ([], met)
  | fuel + 1, met, k :: c =>
    let met := k / 2 :: met
    if s.leaves lowest c then some (k :: c, met)
    else match s.reason.getD (k / 2) none with
      | some i => analyze s lowest fuel met (Coded.resolve s.rank k c (s.clause i))
      | none => none

/-- Takes back the truth of a code, whose variable waits again. -/
def unassign (s : Search) (k : Nat) : Search :=
  { s with
    holds := s.holds.setIfInBounds k false
    phase := s.phase.setIfInBounds (k / 2) (k % 2 == 0)
    waiting := s.waiting.insert (k / 2) }

/-- Takes back all decisions above a level. -/
def backjump (s : Search) (level : Nat) : Search :=
  let n := s.marks.length - level
  if n = 0 then s
  else
    let mark := s.marks.getD (n - 1) 0
    let s := (s.trail.extract mark).toList.foldl unassign s
    { s with trail := s.trail.shrink mark, marks := s.marks.drop n, done := mark }

/-- What is true without a decision can not be taken back: its variables stop waiting, in their order. -/
def fix (s : Search) : Search :=
  if s.marks.isEmpty && s.fixed < s.trail.size then
    let fixed := (s.trail.extract s.fixed).map (· / 2)
    { s with
      waiting := (fixed.qsort (· < ·)).foldl .erase s.waiting
      fixed := s.trail.size }
  else s

/-- The next variable without a value. -/
def pick : Nat → Search → Search × Option Nat
  | 0, s => (s, none)
  | fuel + 1, s =>
    match s.waiting.pop? with
    | none => (s, none)
    | some (v, waiting) =>
      let s := { s with waiting }
      if s.isTrue (2 * v) || s.isFalse (2 * v) then pick fuel s else (s, some v)

/-- Opens a decision: the variable gets the value that it had last. -/
def branch (s : Search) (v : Nat) : Search :=
  let k := if s.phase.getD v false then 2 * v else 2 * v + 1
  { s with marks := s.trail.size :: s.marks }.assign k none

/-- Learns a clause whose first code alone stands on its level, and makes that code true. -/
def learn (s : Search) (c : List Nat) (met : List Nat) : Search :=
  match c with
  | [] => s
  | k :: rest =>
    let s := s.backjump ((rest.head?.map fun j => s.level.getD (j / 2) 0).getD 0)
    let involved := met.reverse ++ rest.map (· / 2)
    let s := { s with waiting := (involved.foldl Heap.bump s.waiting).age }
    (s.addClause (k :: rest)).assign k (some s.clauses.size)

/-- The number of conflicts before restart `n` of a run: a slowly growing sequence with frequent short runs. -/
def patience (n : Nat) : Nat :=
  128 * ((n + 1) &&& (1 <<< (Nat.log2 (n + 1) + 1) - (n + 1)))

/-- The assignment on the trail. -/
def assignment (s : Search) : Assignment :=
  let holds := s.holds
  fun v => holds.getD (2 * v) false

/-- Searches for at most `fuel` decisions and conflicts; `left` conflicts remain before the next restart. -/
def run : Nat → Nat → Nat → Search → Verdict
  | 0, _, _, _ => .gaveUp
  | fuel + 1, restarts, left, s =>
    let (s, conflict) := propagate (s.phase.size + 1) s
    match conflict with
    | some i =>
      match analyze s s.marks.length (s.trail.size + 1) [] (s.byRank (s.clause i)) with
      | none => .gaveUp
      | some ([], _) => .refuted
      | some (c, met) => run fuel restarts (left - 1) (s.learn c met)
    | none =>
      if left = 0 then run fuel (restarts + 1) (patience (restarts + 1)) (s.backjump 0)
      else
        let (s, next) := pick (s.phase.size + 1) s.fix
        match next with
        | none => .model s.assignment
        | some v => run fuel restarts left (s.branch v)

/-- Makes the codes of the one-literal clauses true; the result names one that is false already. -/
def assignUnits : List (Nat × List Nat) → Search → Search × Option Nat
  | [], s => (s, none)
  | (i, [k]) :: rest, s =>
    if s.isTrue k then assignUnits rest s
    else if s.isFalse k then (s, some i)
    else assignUnits rest (s.assign k (some i))
  | _ :: rest, s => assignUnits rest s

/-- Searches for a model of coded clauses over the variables below `n`. -/
def verdict (n : Nat) (clauses : List (List Nat)) : Verdict :=
  if clauses.any List.isEmpty then .refuted
  else
    let s := clauses.foldl addClause (empty n)
    let (s, conflict) := assignUnits (s.clauses.toList.zipIdx.map Prod.swap) s
    match conflict with
    | some i =>
      match analyze s 0 (s.trail.size + 1) [] (s.byRank (s.clause i)) with
      | some ([], _) => .refuted
      | _ => .gaveUp
    | none => run 1000000000 0 (patience 0) s

end Search

/-- The codes of a clause, each once. -/
def Clause.codes (c : Clause) : List Nat := (c.map Literal.code).eraseDups

/-- The engine that learns from conflicts. -/
def conflictDriven : Engine where
  solve f :=
    match Search.verdict f.bound (f.map Clause.codes) with
    | .refuted => none
    | .model a => if f.eval a then some a else exhaustive.solve f
    | .gaveUp => exhaustive.solve f

end Sat
end PlaceRoute
