import Concolic.Atlas.Growth
import Concolic.FlowGraph.Dominators
import Concolic.FlowGraph.Ranking

/-!
# Routes through the atlas

Two questions about all routes from the origin at once.  Which vertices does
every route to a target pass?  And how few decisions does it take to get there?
The second number is the rank of a decision.  A search for new runs takes the
decisions of low rank first; a decision that was reached only by runs that
began elsewhere has no rank.
-/

namespace Concolic

namespace Atlas

/-! ## Dominance -/

/-- The dominators of a vertex, from the vertex itself to the origin. -/
def dominators (atlas : Atlas) (v : Nat) : List Nat :=
  atlas.flow.dominators v

/-- Does every route from the origin to `b` pass `a`?  Never, if there is none. -/
def dominates (atlas : Atlas) (a b : Nat) : Bool :=
  atlas.flow.dominates a b

/-- The closest dominator of a vertex other than itself. -/
def immediateDominator? (atlas : Atlas) (v : Nat) : Option Nat :=
  atlas.flow.immediateDominator? v

/-! ## Ranks -/

/-- Each decision that some route from the origin reaches, with its rank: the
least number of decisions on such a route, itself included. -/
def ranking (atlas : Atlas) : List (Nat × Nat) :=
  let ranks := atlas.flow.ranks atlas.isDecision
  atlas.decisions.filterMap fun v => ranks[v]?.join.map (v, ·)

/-- The rank of the decision at `v`. -/
def rank? (atlas : Atlas) (v : Nat) : Option Nat :=
  atlas.ranking.lookup v

/-- The decisions of a rank. -/
def layer (atlas : Atlas) (rank : Nat) : List Nat :=
  (atlas.ranking.filter fun entry => entry.2 == rank).map Prod.fst

/-- The decisions of a rank that are not closed. -/
def openLayer (atlas : Atlas) (rank : Nat) : List Nat :=
  (atlas.layer rank).filter fun v => !atlas.isClosed v

/-- The ranks that a search goes through, one after the other. -/
def rounds (atlas : Atlas) : List Nat :=
  (List.range atlas.depth).map (· + 1)

end Atlas

end Concolic
