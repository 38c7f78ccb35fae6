import Concolic.FlowGraph.Basic

/-!
# Ranking vertices by the tolls on the way

Entering a vertex costs a toll of one or nothing, the root included.  The rank
of a vertex is the least total toll over all walks from the root to it.

The ranks are found in one sweep.  A queue holds the vertices whose successors
are still to be looked at; a vertex that was entered free of charge joins it at
the front, one that cost a toll joins it at the back.  So the queue stays sorted
by rank, and the first rank that a vertex is given is its least.  Hence no
vertex joins the queue twice, and as many steps as there are vertices empty it.
-/

namespace Concolic

namespace FlowGraph

/-- A sweep in progress. -/
structure Sweep where
  /-- Vertices to be left next, in this order. -/
  queue : List Nat
  /-- The least total toll found so far for each vertex. -/
  ranks : Array (Option Nat)

namespace Sweep

/-- The least total toll found so far for `v`. -/
def rank? (sweep : Sweep) (v : Nat) : Option Nat :=
  sweep.ranks[v]?.join

/-- Is `toll` less than what was found before, if anything was? -/
def improves (toll : Nat) : Option Nat → Bool
  | none => true
  | some known => toll < known

/-- Enter `v` at a total toll of `before` and its own; this counts only if it
is an improvement. -/
def enter (tolled : Nat → Bool) (before : Nat) (sweep : Sweep) (v : Nat) : Sweep :=
  let total := if tolled v then before + 1 else before
  if improves total (sweep.rank? v) then
    { queue := if tolled v then sweep.queue ++ [v] else v :: sweep.queue
      ranks := sweep.ranks.setIfInBounds v (some total) }
  else sweep

/-- Leave the first vertex of the queue and enter its successors. -/
def step (graph : FlowGraph) (tolled : Nat → Bool) (sweep : Sweep) : Sweep :=
  match sweep.queue with
  | [] => sweep
  | u :: rest =>
      match sweep.rank? u with
      | none => { sweep with queue := rest }
      | some before =>
          (graph.successors u).foldl (enter tolled before) { sweep with queue := rest }

/-- The sweep at its beginning: the root alone has been entered. -/
def start (graph : FlowGraph) (tolled : Nat → Bool) : Sweep :=
  if graph.root < graph.size then
    enter tolled 0 ⟨[], Array.replicate graph.size none⟩ graph.root
  else ⟨[], Array.replicate graph.size none⟩

/-- The sweep after a number of steps. -/
def after (graph : FlowGraph) (tolled : Nat → Bool) : Nat → Sweep
  | 0 => start graph tolled
  | count + 1 => step graph tolled (after graph tolled count)

end Sweep

/-- For each vertex within reach, the least total toll of a walk to it. -/
def ranks (graph : FlowGraph) (tolled : Nat → Bool) : Array (Option Nat) :=
  (Sweep.after graph tolled graph.size).ranks

end FlowGraph

end Concolic
