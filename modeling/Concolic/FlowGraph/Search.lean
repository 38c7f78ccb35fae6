import Concolic.FlowGraph.Basic

/-!
# Searching a flow graph

A depth-first search from the root that may not enter some of the vertices.
For each vertex that it reaches it keeps the walk on which it came there first.
The search ends because every step either enters a vertex for the first time
or drops an entry of the stack.
-/

namespace Concolic

namespace FlowGraph

/-- At each vertex that was reached, a walk that leads there. -/
abbrev Routes := Array (Option (List Nat))

/-- The number of vertices still to be reached. -/
def Routes.missing (routes : Routes) : Nat :=
  routes.countP Option.isNone

theorem Routes.missing_setIfInBounds_lt {routes : Routes} {v : Nat} {route : List Nat}
    (h : routes[v]? = some none) :
    Routes.missing (routes.setIfInBounds v (some route)) < routes.missing := by
  obtain ⟨hv, hnone⟩ := Array.getElem?_eq_some_iff.1 h
  have hpos : 0 < routes.countP Option.isNone :=
    Array.countP_pos_iff.2 ⟨routes[v], Array.getElem_mem hv, by simp [hnone]⟩
  have hset : routes.setIfInBounds v (some route) = routes.set v (some route) hv :=
    dif_pos hv
  unfold missing
  rw [hset, Array.countP_set hv, hnone]
  simp only [Option.isNone_none, Option.isNone_some, if_true, Bool.false_eq_true, if_false]
  omega

/-- Continue a search.  The stack holds the vertices to enter next, each with
the walk that leads to it; a vertex that is `shut` or was entered before is
passed over. -/
def explore (graph : FlowGraph) (shut : Nat → Bool) (stack : List (Nat × List Nat))
    (routes : Routes) : Routes :=
  match stack with
  | [] => routes
  | (v, back) :: rest =>
      if routes[v]? = some none ∧ shut v = false then
        graph.explore shut ((graph.successors v).map (fun w => (w, v :: back)) ++ rest)
          (routes.setIfInBounds v (some (v :: back)))
      else graph.explore shut rest routes
termination_by (routes.missing, stack.length)
decreasing_by
  · next h => exact Prod.Lex.left _ _ (Routes.missing_setIfInBounds_lt h.1)
  · exact Prod.Lex.right _ (Nat.lt_succ_self _)

/-- Search from the root without entering a vertex that is `shut`. -/
def routes (graph : FlowGraph) (shut : Nat → Bool) : Routes :=
  graph.explore shut [(graph.root, [])] (Array.replicate graph.size none)

/-- A walk from the root to `v`, if there is one. -/
def route? (graph : FlowGraph) (v : Nat) : Option (List Nat) :=
  (graph.routes fun _ => false)[v]?.join

/-- Does some walk from the root reach `v` without visiting `a`? -/
def hasDetour (graph : FlowGraph) (a v : Nat) : Bool :=
  (graph.routes (· == a))[v]?.join.isSome

end FlowGraph

end Concolic
