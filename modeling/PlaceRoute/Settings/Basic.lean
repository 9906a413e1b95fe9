import PlaceRoute.Decimal.Shortest
import PlaceRoute.Graph.Options
import PlaceRoute.Mapping.Objective

/-!
# Settings of a run

How the resource graph is built, which operations may be duplicated and whether and how the mapping is optimised.
`Settings.validate` accepts the values that make sense. Every choice is written as a word; each table at the end lists the words
of one choice.
-/

namespace PlaceRoute

/-- Where the search for the optimum starts. -/
inductive FirstCut where
  /-- One below the first score. -/
  | upperMinusOne
  /-- Halfway between the bounds, as in all later steps. -/
  | midpoint
  deriving DecidableEq, Repr, Inhabited

/-- How a mapping is optimised. -/
structure OptimizeSettings where
  enabled : Bool := false
  /-- What is minimised. -/
  filter : NodeFilter := .muxRegister
  /-- How it is counted. -/
  encoding : PopcountEncoding := .bitHack
  /-- Whether one solver serves all steps. -/
  incremental : Bool := false
  /-- The gap between the bounds, relative to the upper one, at which the search stops. -/
  cutoff : Option Float := none
  /-- Whether the search goes on at the cutoff with the placement found so far. -/
  freezePlacement : Bool := false
  /-- The gap at which the search with a fixed placement stops. -/
  finalCutoff : Float := 0
  firstCut : FirstCut := .upperMinusOne
  maxIterations : Option Nat := none
  /-- How long the search may take, in seconds. -/
  timeBudget : Option Float := none
  /-- Whether every model is checked. -/
  checkModels : Bool := true
  deriving Repr, Inhabited

/-- The objective of the settings. -/
def OptimizeSettings.objective (s : OptimizeSettings) : Objective := ⟨s.filter, s.encoding⟩

/-- The settings of a run. -/
structure Settings where
  graph : GraphOptions := {}
  /-- The opcodes whose operations may stand on several units. -/
  duplicateOpcodes : List String := []
  optimize : OptimizeSettings := {}
  deriving Repr, Inhabited

namespace Settings

/-- Values that make no sense. -/
inductive Invalid where
  | noContexts
  /-- A fraction is not in `[0, 1)`. -/
  | fraction (field : String) (value : Float)
  | timeBudget (value : Float)
  | noIterations
  deriving Repr

/-- The text of a refusal. -/
def Invalid.message : Invalid → String
  | noContexts => "mrrg.contexts must be at least 1"
  | fraction field value => s!"{field} must be in [0, 1), got " ++ Decimal.shortestText value
  | timeBudget value => "optimize.time_budget_secs must be positive, got " ++ Decimal.shortestText value
  | noIterations => "optimize.max_iterations must be at least 1"

/-- Checks that a value is in `[0, 1)`. -/
def checkFraction (field : String) (value : Float) : Except Invalid Unit :=
  if 0 ≤ value ∧ value < 1 then .ok () else .error (.fraction field value)

/-- Checks that all values make sense. -/
def validate (s : Settings) : Except Invalid Unit := do
  if s.graph.contexts = 0 then throw .noContexts
  s.optimize.cutoff.toList.forM (checkFraction "optimize.cutoff")
  checkFraction "optimize.final_cutoff" s.optimize.finalCutoff
  match s.optimize.timeBudget with
  | some budget => if 0 < budget then pure () else throw (.timeBudget budget)
  | none => pure ()
  if s.optimize.maxIterations = some 0 then throw .noIterations

end Settings

/-! ## Words -/

/-- The ways to break cycles. -/
def CycleBreak.words : List (String × CycleBreak) :=
  [("back-edges", .backEdges), ("all-mux-edges", .allMuxEdges), ("none", .none)]

/-- What becomes of registers. -/
def RegisterPolicy.words : List (String × RegisterPolicy) := [("elide", .elide), ("retain", .retain)]

/-- The nodes to count. -/
def NodeFilter.words : List (String × NodeFilter) :=
  [("mux", .mux), ("mux-register", .muxRegister), ("routing", .routing)]

/-- The ways to count. -/
def PopcountEncoding.words : List (String × PopcountEncoding) :=
  [("ite", .ite), ("zero-extend", .zeroExtend), ("bit-hack", .bitHack), ("shannon", .shannon)]

/-- The starts of a search. -/
def FirstCut.words : List (String × FirstCut) := [("upper-minus-one", .upperMinusOne), ("midpoint", .midpoint)]

end PlaceRoute
