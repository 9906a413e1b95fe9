/-!
# Options for building resource graphs
-/

namespace PlaceRoute

/-- Which edges between muxes get a node in between. -/
inductive CycleBreak where
  /-- Only those that close a cycle. -/
  | backEdges
  /-- All of them. -/
  | allMuxEdges
  /-- None. -/
  | none
  deriving DecidableEq, Repr, Inhabited

/-- What becomes of registers when there is one context only. -/
inductive RegisterPolicy where
  /-- Their driver is wired to their consumers. -/
  | elide
  /-- They stay. -/
  | retain
  deriving DecidableEq, Repr, Inhabited

/-- How a resource graph is built from a fabric. -/
structure GraphOptions where
  contexts : Nat := 1
  cycleBreak : CycleBreak := .backEdges
  registers : RegisterPolicy := .elide
  deriving DecidableEq, Repr, Inhabited

end PlaceRoute
