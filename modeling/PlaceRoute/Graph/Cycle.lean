import PlaceRoute.Graph.Basic

/-!
# Cycles of muxes

`muxBackEdges` finds the edges between muxes that close a cycle in a depth-first walk. Roots are taken in the order
given and the edges of a node by output port, so the answer is determined by the graph.
-/

namespace PlaceRoute
namespace Graph

/-- How far a depth-first walk has come. -/
structure Walk where
  /-- The nodes that are left for good. -/
  done : List NodeId
  /-- The edges back to a node that was not left yet, latest first. -/
  back : List Edge

/-- Walks everything that can be reached from a node; `path` holds the nodes on the way to it. -/
def Walk.explore (edges : NodeId → List Edge) : Nat → List NodeId → NodeId → Walk → Walk
  | 0, _, _, w => w
  | fuel + 1, path, n, w =>
    let w := (edges n).foldl (fun w e =>
      if e.dst ∈ n :: path then { w with back := e :: w.back }
      else if e.dst ∈ w.done then w
      else explore edges fuel (n :: path) e.dst w) w
    { w with done := n :: w.done }

/-- The back edges of a depth-first walk from each root that was not reached before. -/
def backEdges (edges : NodeId → List Edge) (roots : List NodeId) : List Edge :=
  let w := roots.foldl (fun (w : Walk) n =>
    if n ∈ w.done then w else w.explore edges (roots.length + 1) [] n) ⟨[], []⟩
  w.back.reverse

/-- The edges of a mux that lead to a mux. -/
def muxEdges (node? : NodeId → Option Node) (id : NodeId) : List Edge :=
  ((node? id).map (·.outgoing)).getD [] |>.filter fun e => (node? e.dst).any (·.isMux)

/-- The edges between muxes that close a cycle of muxes, among the nodes with numbers `ids`. -/
def muxBackEdges (node? : NodeId → Option Node) (ids : List NodeId) : List Edge :=
  backEdges (muxEdges node?) (ids.filter fun id => (node? id).any (·.isMux))

/-- The edges between muxes that close a cycle of muxes. -/
def findMuxBackEdges (g : Graph) : List Edge := muxBackEdges g.node? g.ids

end Graph
end PlaceRoute
