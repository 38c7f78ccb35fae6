import Concolic.FlowGraph.Dominators
import Concolic.Proofs.Search

/-!
# Dominance, computed and meant

Dominance speaks of all walks to a vertex; the dominators are computed from
one walk and one search for each vertex of it.  The two agree.  A dominator is
on every walk, so also on the one that was found, and a detour would be a walk
without it.  Conversely a walk that misses a vertex of the found walk is a
detour around it.

## Main results

* `mem_dominators_iff`: the dominators of a vertex are what dominates it.
* `dominates_iff`: the test for dominance says what it should.
-/

namespace Concolic

namespace FlowGraph

section

variable {graph : FlowGraph}

/-- A detour around `a` is a walk that does not visit it. -/
theorem hasDetour_iff {a v : Nat} :
    graph.hasDetour a v = true ↔
      ∃ back, graph.Walk graph.root (v :: back) ∧ a ∉ v :: back := by
  have hshut : ∀ walk : List Nat, (∀ u ∈ walk, (u == a) = false) ↔ a ∉ walk := by
    intro walk
    constructor
    · intro h ha
      simpa using h a ha
    · intro h u hu
      exact beq_eq_false_iff_ne.2 fun heq => h (heq ▸ hu)
  show ((graph.routes (· == a))[v]?.join.isSome = true) ↔ _
  rw [isSome_routes_iff]
  exact exists_congr fun back => and_congr_right fun _ => hshut (v :: back)

/-- The route to a vertex is a walk there. -/
theorem walk_of_route {v : Nat} {route : List Nat} (h : graph.route? v = some route) :
    ∃ back, route = v :: back ∧ graph.Walk graph.root route := by
  obtain ⟨back, heq, hopen⟩ := openWalk_of_routes h
  exact ⟨back, heq, hopen.1⟩

/-- Exactly the vertices within reach have a route. -/
theorem isSome_route_iff {v : Nat} : (graph.route? v).isSome ↔ graph.Reachable v := by
  show ((graph.routes fun _ => false)[v]?.join.isSome = true) ↔ _
  rw [isSome_routes_iff]
  exact exists_congr fun back => ⟨And.left, fun h => ⟨h, fun _ _ => rfl⟩⟩

theorem dominators_of_route {v : Nat} {route : List Nat}
    (h : graph.route? v = some route) :
    graph.dominators v = route.filter fun a => !graph.hasDetour a v := by
  rw [dominators, h]

/-- No dominator is listed twice. -/
theorem nodup_dominators (graph : FlowGraph) (v : Nat) : (graph.dominators v).Nodup := by
  cases hroute : graph.route? v with
  | none =>
      rw [dominators, hroute]
      exact List.nodup_nil
  | some route =>
      rw [dominators_of_route hroute]
      exact (nodup_of_routes hroute).filter _

/-- **Dominators are what dominates**: membership in the computed list is
presence on every walk from the root. -/
theorem mem_dominators_iff {a v : Nat} :
    a ∈ graph.dominators v ↔ graph.Dominates a v := by
  cases hroute : graph.route? v with
  | none =>
      have hfar : ¬graph.Reachable v := by
        rw [← isSome_route_iff, hroute]
        simp
      rw [dominators, hroute]
      exact ⟨fun h => absurd h List.not_mem_nil, fun h => absurd h.reachable hfar⟩
  | some route =>
      obtain ⟨back, rfl, hwalk⟩ := walk_of_route hroute
      rw [dominators_of_route hroute, List.mem_filter]
      constructor
      · intro hmem
        rcases hmem with ⟨-, hnone⟩
        have hdetour : ¬graph.hasDetour a v = true := by simpa using hnone
        rw [hasDetour_iff] at hdetour
        refine ⟨⟨back, hwalk⟩, ?_⟩
        intro other hother
        by_cases ha : a ∈ v :: other
        · exact ha
        · exact absurd ⟨other, hother, ha⟩ hdetour
      · intro hdom
        refine ⟨hdom.2 back hwalk, ?_⟩
        have hdetour : ¬graph.hasDetour a v = true := by
          rw [hasDetour_iff]
          intro haround
          rcases haround with ⟨other, hother, ha⟩
          exact ha (hdom.2 other hother)
        simpa using hdetour

theorem dominates_iff {a v : Nat} : graph.dominates a v = true ↔ graph.Dominates a v := by
  rw [dominates, List.contains_iff_mem]
  exact mem_dominators_iff

end

end FlowGraph

end Concolic
