import Concolic.FlowGraph.Basic

/-!
# Walks of a flow graph

A walk carries its latest vertex at the head, and extending it is the only way
to change it.  So a fact about all walks to a vertex is an induction on the
last step.  A walk can be cut at any of its vertices, and then the part before
the cut may give way to any other walk to that vertex.

The searches of a flow graph keep what they know of each vertex in an array of
optional entries, in which a vertex has an entry at most once; how such a table
is read after a new entry is the same for all of them.
-/

namespace Concolic

namespace FlowGraph

/-! ## Steps and ends -/

/-- Every vertex of a walk is a vertex of the graph. -/
theorem Walk.lt_size {graph : FlowGraph} {start v : Nat} {back : List Nat}
    (h : graph.Walk start (v :: back)) : v < graph.size := by
  cases h with
  | stay hstart => exact hstart
  | step _ hv => exact lt_size_of_mem_successors hv

/-- A walk begins where it should. -/
theorem Walk.start_mem {graph : FlowGraph} {start : Nat} {walk : List Nat}
    (h : graph.Walk start walk) : start ∈ walk := by
  induction h with
  | stay _ => exact List.mem_singleton.2 rfl
  | step _ _ ih => exact List.mem_cons_of_mem _ ih

/-- A vertex dominates nothing but what walks from the root reach. -/
theorem Dominates.reachable {graph : FlowGraph} {a v : Nat}
    (h : graph.Dominates a v) : graph.Reachable v :=
  h.1

/-! ## Cutting and joining -/

section

variable {graph : FlowGraph} {start v w : Nat} {recent back other : List Nat}

/-- A walk of more than one vertex is a walk with one step more. -/
theorem walk_cons_cons_iff :
    graph.Walk start (w :: v :: back) ↔
      graph.Walk start (v :: back) ∧ w ∈ graph.successors v := by
  constructor
  · intro h
    cases h with
    | step hwalk hw => exact ⟨hwalk, hw⟩
  · intro h
    exact h.1.step h.2

/-- **Cutting a walk** at one of its vertices leaves a walk to the vertex and a walk
from there, and such walks can be joined. -/
theorem walk_append_iff :
    graph.Walk start (recent ++ v :: back) ↔
      graph.Walk start (v :: back) ∧ graph.Walk v (recent ++ [v]) := by
  induction recent with
  | nil =>
      constructor
      · intro h
        exact ⟨h, .stay h.lt_size⟩
      · intro h
        exact h.1
  | cons w recent ih =>
      -- the step to `w` starts at the cut or behind it
      cases recent with
      | nil =>
          show graph.Walk start (w :: v :: back) ↔ _ ∧ graph.Walk v (w :: v :: [])
          rw [walk_cons_cons_iff, walk_cons_cons_iff]
          constructor
          · intro h
            exact ⟨h.1, .stay h.1.lt_size, h.2⟩
          · intro h
            exact ⟨h.1, h.2.2⟩
      | cons x recent =>
          show graph.Walk start (w :: x :: (recent ++ v :: back)) ↔
            _ ∧ graph.Walk v (w :: x :: (recent ++ [v]))
          rw [walk_cons_cons_iff, walk_cons_cons_iff, ← and_assoc]
          exact and_congr_left' ih

/-- What a walk visited up to one of its vertices is a walk to that vertex. -/
theorem Walk.earlier (h : graph.Walk start (recent ++ v :: back)) :
    graph.Walk start (v :: back) :=
  (walk_append_iff.1 h).1

/-- What a walk visited from one of its vertices on is a walk from that vertex. -/
theorem Walk.later (h : graph.Walk start (recent ++ v :: back)) :
    graph.Walk v (recent ++ [v]) :=
  (walk_append_iff.1 h).2

/-- A walk may come to one of its vertices in another way and go on as before. -/
theorem Walk.reroute (h : graph.Walk start (recent ++ v :: back))
    (hother : graph.Walk start (v :: other)) : graph.Walk start (recent ++ v :: other) :=
  walk_append_iff.2 ⟨hother, h.later⟩

end

/-! ## Tables -/

/-- The new entry of a table is read at its vertex alone. -/
theorem join_getElem?_setIfInBounds {α : Type} (table : Array (Option α))
    {v : Nat} (hv : v < table.size) (entry : α) (w : Nat) :
    (table.setIfInBounds v (some entry))[w]?.join =
      if w = v then some entry else table[w]?.join := by
  rw [Array.getElem?_setIfInBounds]
  by_cases h : w = v
  · subst h
    simp [hv]
  · simp [h, Ne.symm h]

/-- An empty table has no entry. -/
theorem join_getElem?_replicate_none {α : Type} (size v : Nat) :
    (Array.replicate size (none : Option α))[v]?.join = none := by
  rw [Array.getElem?_replicate]
  split <;> rfl

end FlowGraph

end Concolic
