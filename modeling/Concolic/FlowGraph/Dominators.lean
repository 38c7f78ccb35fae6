import Concolic.FlowGraph.Search

/-!
# Dominators

A vertex dominates `v` if every walk from the root to `v` visits it.  All
dominators of `v` therefore lie on whichever walk to `v` the search has found,
and they are the vertices of that walk around which there is no detour.  Read
from the end of the walk, they come in order of dominance: from `v` itself to
the root.  A vertex out of reach has no dominators at all and dominates
nothing.
-/

namespace Concolic

namespace FlowGraph

/-- The dominators of `v`, from `v` itself to the root; none if `v` is out of
reach. -/
def dominators (graph : FlowGraph) (v : Nat) : List Nat :=
  match graph.route? v with
  | none => []
  | some route => route.filter fun a => !graph.hasDetour a v

/-- Does every walk from the root to `v` visit `a`?  Never, if there is no
such walk. -/
def dominates (graph : FlowGraph) (a v : Nat) : Bool :=
  (graph.dominators v).contains a

/-- The closest dominator of `v` other than `v`. -/
def immediateDominator? (graph : FlowGraph) (v : Nat) : Option Nat :=
  (graph.dominators v)[1]?

end FlowGraph

end Concolic
