import PlaceRoute.Decimal.Binary64
import PlaceRoute.Session.Basic
import PlaceRoute.Settings.Basic

/-!
# Optimising a mapping

`Session.optimize` minimises an objective by bisection. The search keeps a `floor` that no score found later can be
below and the score `upper` of the best model; each step asks the solver for a model that scores at most some bound
in between. Once the placement is frozen the floor holds for this placement only, so `lower` stays behind.
-/

namespace PlaceRoute

/-- How to search. -/
structure SearchOptions where
  incremental : Bool
  cutoff : Option Float
  freezePlacement : Bool
  finalCutoff : Float
  firstCut : FirstCut
  maxIterations : Option Nat
  /-- How long the search may take, in nanoseconds. -/
  timeBudget : Option Nat
  checkModels : Bool
  deriving Repr, Inhabited

/-- The search that the settings ask for. Where the time budget is no span of time there is none: the program breaks off. -/
def OptimizeSettings.searchOptions? (s : OptimizeSettings) : Option SearchOptions := do
  let timeBudget ← s.timeBudget.mapM Decimal.nanoseconds?
  pure {
    incremental := s.incremental
    cutoff := s.cutoff
    freezePlacement := s.freezePlacement
    finalCutoff := s.finalCutoff
    firstCut := s.firstCut
    maxIterations := s.maxIterations
    timeBudget := timeBudget
    checkModels := s.checkModels }

/-- The best mapping that a search found, and what is known of its score. -/
structure Optimum where
  /-- No mapping scores less. -/
  lower : Nat
  /-- The score of the model. -/
  upper : Nat
  /-- The bound for the frozen placement, if it was frozen. -/
  frozenLower : Option Nat
  iterations : Nat
  /-- The floor and the best score after the first model and after each step. -/
  history : List (Nat × Nat)
  model : Model
  deriving Inhabited

namespace Optimum

/-- Whether the bounds met. -/
def provenOptimal (o : Optimum) : Bool := decide (o.upper ≤ o.lower)

/-- Whether the placement was frozen. -/
def frozen (o : Optimum) : Bool := o.frozenLower.isSome

end Optimum

/-- The result of a search. -/
inductive Optimization where
  /-- There is no mapping. -/
  | unsatisfiable
  | best (o : Optimum)
  deriving Inhabited

/-- Whether the gap between bounds, relative to the upper one, is down to a cutoff. -/
def gapReached (cutoff : Float) (floor upper : Nat) : Bool :=
  upper == 0 || decide ((upper - floor).toFloat / upper.toFloat ≤ cutoff)

/-- The state of a search. -/
structure Search where
  best : Model
  /-- The score of the best model. -/
  upper : Nat
  /-- No mapping scores less. -/
  lower : Nat := 0
  /-- No mapping with the pinned decisions scores less. -/
  floor : Nat := 0
  /-- The decisions pinned when the placement was frozen. -/
  pins : Option (List (Key × Bool)) := none
  /-- The count that the solver holds. -/
  count : Count
  iterations : Nat := 0
  history : List (Nat × Nat)

/-- What to do next. -/
inductive SearchStep where
  | finish
  | stop (reason : StopReason)
  | freeze
  | probe (bound : Nat)
  deriving DecidableEq, Repr

namespace Search

/-- The cutoff in force. -/
def cutoff (o : SearchOptions) (s : Search) : Option Float := if s.pins.isSome then some o.finalCutoff else o.cutoff

/-- The score to ask for next. -/
def bound (o : SearchOptions) (s : Search) : Nat :=
  if s.iterations = 0 ∧ o.firstCut = .upperMinusOne then s.upper - 1 else s.floor + (s.upper - 1 - s.floor) / 2

/-- What to do next; `expired` says whether the time is up. -/
def next (o : SearchOptions) (expired : Bool) (s : Search) : SearchStep :=
  if s.upper ≤ s.floor then .finish
  else if (s.cutoff o).any fun c => gapReached c s.floor s.upper then
    if o.freezePlacement && s.pins.isNone then .freeze else .stop .cutoff
  else if o.maxIterations.any fun limit => limit ≤ s.iterations then .stop .iterations
  else if expired then .stop .time
  else .probe (s.bound o)

/-- The search after a model with a score was found. -/
def improve (s : Search) (m : Model) (score : Nat) : Search := { s with best := m, upper := min s.upper score }

/-- The search after no model was found up to a bound. -/
def refute (s : Search) (bound : Nat) : Search :=
  { s with floor := bound + 1, lower := if s.pins.isSome then s.lower else bound + 1 }

/-- Counts a step. -/
def record (s : Search) : Search :=
  { s with iterations := s.iterations + 1, history := s.history ++ [(s.floor, s.upper)] }

/-- The result of the search. -/
def optimum (s : Search) : Optimum where
  lower := s.lower
  upper := s.upper
  frozenLower := s.pins.map fun _ => s.floor
  iterations := s.iterations
  history := s.history
  model := s.best

/-- The most steps that a search takes. One that moves a bound brings the bounds nearer to each other, and the
placement is frozen once, so that `upper + 1` steps are enough for these; the rest are for models that score no better
than the one before. -/
def maxSteps (s : Search) : Nat := s.upper + UInt32.size

end Search

/-- The placement decisions of a model. -/
def Model.placementPins (m : Model) (g : Graph) (d : Design) : List (Key × Bool) :=
  g.units.flatMap fun u => d.operations.map fun op => (.place u op.id, m.isSet (.place u op.id))

namespace Session
section
variable (p : Problem) (o : SearchOptions) (objective : Objective) (families : List Family)

/-- Asserts that decisions have given values. -/
def pin (pins : List (Key × Bool)) : EncodeM Unit := pins.forM fun (key, value) => do
  let b ← Encoder.bit key
  Encoder.assert (if value then b else -b)

/-- Starts over with an encoder that holds the families, the count and pinned decisions. -/
def rebuild (pins : List (Key × Bool)) : SessionM Count := do
  modify fun s => { s with encoder := .new }
  declare p
  build do
    generate p families
    let (defined, count) ← objective.encode p.graph p.design
    Encoder.assert defined
    pin pins
    pure count

/-- A model whose count is at least `lower` and below `upper`. -/
def probe (count : Count) (lower upper : Nat) : SessionM (Option Model) := do
  encode do Encoder.assert (← Encoder.checked (count.window lower upper))
  solveModel p

/-- Runs steps in a scope, which is closed even if they fail. -/
def inScope {α : Type} (m : SessionM α) : SessionM α := do
  encode (Encoder.build Solver.push)
  let result ← ExceptT.lift m.run
  encode (Encoder.checked Solver.pop)
  ofResult id result

/-- Checks a model, if asked for, and scores it. -/
def score (m : Model) : SessionM Nat := do
  if o.checkModels then discard (confirm p m)
  ofResult (fun e => .error (.unscorable e)) (objective.eval p.graph p.design m)

/-- Fixes the placement of the best model. -/
def freeze (s : Search) : SessionM Search := do
  let pins := s.best.placementPins p.graph p.design
  if o.incremental then encode (pin pins)
  tell (.frozen s.lower s.upper)
  pure { s with pins := some pins }

/-- Asks for a model between the floor and a bound, both included. -/
def seek (s : Search) (bound : Nat) : SessionM (Count × Option Model) := do
  if o.incremental then
    return (s.count, ← inScope (probe p s.count s.floor (bound + 1)))
  else
    let count ← rebuild p objective families (s.pins.getD [])
    return (count, ← probe p count s.floor (bound + 1))

/-- The search after a probe up to a bound: a model that it found is checked and scored. -/
def settle (s : Search) (bound : Nat) : Option Model → SessionM Search
  | some m => do return s.improve m (← score p o objective m)
  | none => pure (s.refute bound)

/-- A step of the search. -/
def advance (s : Search) (bound : Nat) : SessionM Search := do
  let (count, found) ← seek p o objective families s bound
  let s ← settle p o objective { s with count := count } bound found
  let s := s.record
  tell (.probed bound found.isSome s.floor s.upper)
  pure s

/-- Whether the time is up for a search that started at some time. -/
def expired (start : Nat) : SessionM Bool := do
  match o.timeBudget with
  | none => pure false
  | some budget => return decide (budget ≤ (← now) - start)

/-- Searches for at most `fuel` steps. -/
def search (start : Nat) : Nat → Search → SessionM Search
  | 0, s => pure s
  | fuel + 1, s => do
    match s.next o (← expired o start) with
    | .finish => pure s
    | .stop reason => do
      tell (.stopped s.floor s.upper reason)
      pure s
    | .freeze => do search start fuel (← freeze p o s)
    | .probe bound => do search start fuel (← advance p o objective families s bound)

/-- The search at its start, if there is a model at all. -/
def firstSearch : SessionM (Option Search) := do
  let count ← rebuild p objective families []
  match ← solveModel p with
  | none => pure none
  | some m =>
    let upper ← score p o objective m
    tell (.firstModel upper (objective.countedNodes p.graph).length)
    pure (some { best := m, upper := upper, count := count, history := [(0, upper)] })

end

/-- Minimises an objective over all mappings, or over all models of the families asserted so far if there are any.
What the solver held before is lost. -/
def optimize (p : Problem) (o : SearchOptions) (objective : Objective) : SessionM Optimization := do
  let asserted := (← get).asserted
  let families := if asserted.isEmpty then Family.all else asserted
  if o.freezePlacement && o.cutoff.isNone then tell .freezeWithoutCutoff
  let start ← now
  match ← firstSearch p o objective families with
  | none => pure .unsatisfiable
  | some s => return .best (← search p o objective families start s.maxSteps s).optimum

end Session
end PlaceRoute
