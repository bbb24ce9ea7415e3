/-!
# Depth-first search

A search that follows the first successor first.  A node may wait on the stack
more than once and is visited when it is first taken off.  Every node puts its
successors on the stack once, so a search takes at most one step for its start
and one for each edge.
-/

namespace ShapeAnalysis

/-- Visit what the stack leads to.  `seen` holds the nodes visited before,
newest first, and the fuel bounds the steps. -/
def depthFirst {α : Type} [DecidableEq α] (next : α → List α) :
    Nat → List α → List α → List α
  | 0, _, seen => seen
  | _ + 1, [], seen => seen
  | fuel + 1, x :: stack, seen =>
    if x ∈ seen then depthFirst next fuel stack seen
    else depthFirst next fuel (next x ++ stack) (x :: seen)

/-- The nodes reachable from a start, in the order of the search, in a graph
with a given number of edges. -/
def searchOrder {α : Type} [DecidableEq α] (next : α → List α) (edges : Nat) (start : α) :
    List α :=
  (depthFirst next (edges + 1) [start] []).reverse

end ShapeAnalysis
