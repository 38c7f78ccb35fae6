/-!
# Flow graphs

A flow graph is a finite directed graph with a distinguished root, where the
walks of interest begin.  Its vertices are the numbers below its size.  Loops,
several ways into a loop, and vertices that no walk from the root reaches are
all allowed.

A walk is written with its latest vertex first.  It is then extended at the
head of the list, both here and in the searches that follow.
-/

namespace Concolic

/-- A finite directed graph with a root.  The vertices are the positions of
`next`, which lists the successors of each. -/
structure FlowGraph where
  next : Array (List Nat)
  root : Nat
  /-- Every edge ends at a vertex. -/
  next_lt : ∀ u v : Nat, v ∈ next[u]?.getD [] → v < next.size

namespace FlowGraph

/-- The number of vertices. -/
def size (graph : FlowGraph) : Nat :=
  graph.next.size

/-- The vertices one step after `u`; none if `u` is no vertex. -/
def successors (graph : FlowGraph) (u : Nat) : List Nat :=
  graph.next[u]?.getD []

/-- Walks from `start`, with the latest vertex first. -/
inductive Walk (graph : FlowGraph) (start : Nat) : List Nat → Prop where
  | stay : start < graph.size → Walk graph start [start]
  | step {u v : Nat} {back : List Nat} :
      Walk graph start (u :: back) → v ∈ graph.successors u →
        Walk graph start (v :: u :: back)

/-- Some walk from the root ends at `v`. -/
def Reachable (graph : FlowGraph) (v : Nat) : Prop :=
  ∃ back, graph.Walk graph.root (v :: back)

/-- Some walk from the root ends at `v`, and each of them visits `a`. -/
def Dominates (graph : FlowGraph) (a v : Nat) : Prop :=
  graph.Reachable v ∧ ∀ back, graph.Walk graph.root (v :: back) → a ∈ v :: back

theorem lt_size_of_mem_successors {graph : FlowGraph} {u v : Nat}
    (h : v ∈ graph.successors u) : v < graph.size :=
  graph.next_lt u v h

end FlowGraph

end Concolic
