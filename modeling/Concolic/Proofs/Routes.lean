import Concolic.Atlas.Routes
import Concolic.Proofs.Dominance
import Concolic.Proofs.History
import Concolic.Proofs.Sweep
import Concolic.Tour.Program

/-!
# Dominance and ranks on the routes of an atlas

A route leads from the origin along the successors of an atlas.  The routes are
the walks of its flow graph, so what was shown of searches and sweeps holds of
the atlas: dominance is presence on every route, and the rank of a decision is
the least number of decisions on a route to it.  Both are read off the edges
that the atlas has now; a run that adds an edge adds routes and may change any
answer.

## Main results

* `Atlas.dominates_iff_forall_route`: dominance over all routes.
* `Atlas.ranking_isLeast`: which decisions are ranked, and by what.
-/

namespace Concolic

namespace Atlas

/-! ## Routes -/

/-- Routes from the origin along successors, with the latest vertex first. -/
inductive Route (atlas : Atlas) : List Nat → Prop where
  | origin {v : Nat} : atlas.origin? = some v → Route atlas [v]
  | step {u v : Nat} {back : List Nat} :
      Route atlas (u :: back) → v ∈ atlas.successors u → Route atlas (v :: u :: back)

/-- Some route ends at `v`. -/
def Within (atlas : Atlas) (v : Nat) : Prop :=
  ∃ back, atlas.Route (v :: back)

/-- The numbers of decisions on the routes to `v`, its end and the origin
included. -/
def routeCounts (atlas : Atlas) (v : Nat) : Set Nat :=
  {count | ∃ back, atlas.Route (v :: back) ∧ (v :: back).countP atlas.isDecision = count}

section

variable {atlas : Atlas}

theorem origin?_eq_some_iff {v : Nat} :
    atlas.origin? = some v ↔ v = 0 ∧ 0 < atlas.size := by
  unfold origin?
  split
  · next hpos => simp [hpos, eq_comm]
  · next hpos => simp [hpos]

theorem size_flow (atlas : Atlas) : atlas.flow.size = atlas.size := by
  simp [flow, FlowGraph.size, ids]

theorem mem_successors_flow {u v : Nat} :
    v ∈ atlas.flow.successors u ↔ u < atlas.size ∧ v ∈ atlas.successors u := by
  show v ∈ ((atlas.ids.map atlas.successors).toArray[u]?).getD [] ↔ _
  rw [List.getElem?_toArray, List.getElem?_map, ids]
  by_cases hu : u < atlas.size
  · simp [hu]
  · simp [hu]

theorem successors_flow {u : Nat} (hu : u < atlas.size) :
    atlas.flow.successors u = atlas.successors u := by
  show ((atlas.ids.map atlas.successors).toArray[u]?).getD [] = _
  simp [ids, hu]

theorem Route.lt_size {v : Nat} {back : List Nat} (h : atlas.Route (v :: back)) :
    v < atlas.size := by
  cases h with
  | origin hv =>
      obtain ⟨rfl, hpos⟩ := origin?_eq_some_iff.1 hv
      exact hpos
  | step _ hv => exact (mem_successors.1 hv).1

/-- The routes are the walks of the flow graph. -/
theorem route_iff_walk {walk : List Nat} :
    atlas.Route walk ↔ atlas.flow.Walk atlas.flow.root walk := by
  constructor
  · intro h
    induction h with
    | origin hv =>
        obtain ⟨rfl, hpos⟩ := origin?_eq_some_iff.1 hv
        exact .stay (by rwa [size_flow])
    | step hroute hv ih => exact ih.step (mem_successors_flow.2 ⟨hroute.lt_size, hv⟩)
  · intro h
    induction h with
    | stay hroot => exact .origin (origin?_eq_some_iff.2 ⟨rfl, by rwa [size_flow] at hroot⟩)
    | step _ hv ih => exact ih.step (mem_successors_flow.1 hv).2

theorem within_iff_reachable {v : Nat} : atlas.Within v ↔ atlas.flow.Reachable v :=
  exists_congr fun _ => route_iff_walk

/-! ## Dominance -/

theorem dominates_eq_true_iff {a b : Nat} :
    atlas.dominates a b = true ↔
      atlas.Within b ∧ ∀ back, atlas.Route (b :: back) → a ∈ b :: back := by
  rw [dominates, FlowGraph.dominates_iff, FlowGraph.Dominates, ← within_iff_reachable]
  exact and_congr_right fun _ =>
    forall_congr' fun back => imp_congr_left route_iff_walk.symm

theorem dominates_eq_false_of_not_within {a b : Nat} (h : ¬atlas.Within b) :
    atlas.dominates a b = false := by
  rw [Bool.eq_false_iff, Ne, dominates_eq_true_iff]
  exact fun hdom => h hdom.1

theorem dominates_self {v : Nat} (hwithin : atlas.Within v) :
    atlas.dominates v v = true :=
  dominates_eq_true_iff.2 ⟨hwithin, fun _ _ => List.mem_cons_self⟩

/-- Around a vertex that does not dominate there is a route. -/
theorem exists_route_around {a b : Nat} (hwithin : atlas.Within b)
    (hdominates : atlas.dominates a b = false) :
    ∃ back, atlas.Route (b :: back) ∧ a ∉ b :: back := by
  by_contra hnone
  have hroutes : ∀ back, atlas.Route (b :: back) → a ∈ b :: back := by
    intro back hroute
    by_contra haround
    exact hnone ⟨back, hroute, haround⟩
  exact Bool.eq_false_iff.1 hdominates (dominates_eq_true_iff.2 ⟨hwithin, hroutes⟩)

/-- Before anything was observed there is no route at all. -/
theorem not_within_of_runs_eq_nil {settings : Settings} {events : List Event}
    (h : (empty settings).replay events = .ok atlas)
    (hruns : ∀ trace ∈ runs events, trace = []) (v : Nat) : ¬atlas.Within v := by
  intro hwithin
  rcases hwithin with ⟨back, hroute⟩
  have hv := hroute.lt_size
  obtain ⟨trace, htrace, hclause⟩ :=
    (mem_clauses_iff h).1 (List.getElem_mem (l := atlas.clauses.toList) hv)
  rw [hruns trace htrace] at hclause
  cases hclause

/-- **Dominance, over all routes.**  Whatever happened to an atlas, `a`
dominates `b` exactly if a route leads to `b` and every such route passes `a`.
So nothing dominates a vertex out of reach, and nothing dominates anything
before the first run that observed something. -/
theorem dominates_iff_forall_route {settings : Settings} {events : List Event}
    (h : (empty settings).replay events = .ok atlas) (a b : Nat) :
    (atlas.dominates a b = true ↔
      atlas.Within b ∧ ∀ back, atlas.Route (b :: back) → a ∈ b :: back) ∧
    (¬atlas.Within b → atlas.dominates a b = false) ∧
    ((∀ trace ∈ runs events, trace = []) → atlas.dominates a b = false) := by
  refine ⟨dominates_eq_true_iff, dominates_eq_false_of_not_within, ?_⟩
  intro hruns
  exact dominates_eq_false_of_not_within (not_within_of_runs_eq_nil h hruns b)

/-- Two runs of the sample program that part at its first decision. -/
def forkedRuns : List Event :=
  [.run (Tour.sampleRun 5 3), .run (Tour.sampleRun 0 1)]

/-- The difference is computed after the comparison only. -/
theorem dominates_iff_forall_route_forked :
    ∃ atlas, (empty {}).replay forkedRuns = .ok atlas ∧ atlas.dominates 1 2 = true := by
  have hvalue : ((empty {}).replay forkedRuns).map (fun atlas =>
      (atlas.origin?, atlas.successors 0, atlas.successors 1, atlas.predecessors 2)) =
        .ok (some 0, [1, 5], [2], [1]) := by
    rfl
  obtain ⟨atlas, h, hvalue⟩ := exists_of_map_eq_ok hvalue
  simp only [Prod.mk.injEq] at hvalue
  rcases hvalue with ⟨horigin, hzero, hone, htwo⟩
  have hroute : atlas.Route [2, 1, 0] :=
    .step (.step (.origin horigin) (by simp [hzero])) (by simp [hone])
  refine ⟨atlas, h, (dominates_iff_forall_route h 1 2).1.2 ⟨⟨[1, 0], hroute⟩, ?_⟩⟩
  intro back hback
  cases hback with
  | origin hv =>
      rw [horigin] at hv
      cases hv
  | @step u _ trail _ hv =>
      -- the last step comes from the only predecessor
      have hu : u ∈ atlas.predecessors 2 := (mem_predecessors_iff h).2 hv
      rw [htwo, List.mem_singleton] at hu
      simp [hu]

/-! ## Ranks -/

theorem setOf_affords_eq (atlas : Atlas) (v : Nat) :
    {cost | atlas.flow.Affords atlas.isDecision v cost} = atlas.routeCounts v := by
  ext count
  exact exists_congr fun back => and_congr_left fun _ => route_iff_walk.symm

theorem lt_size_of_isDecision {v : Nat} (h : atlas.isDecision v = true) :
    v < atlas.size := by
  rw [isDecision, Option.any_eq_true] at h
  rcases h with ⟨clause, hclause, -⟩
  exact lt_size_of_clause? hclause

theorem mem_decisions {v : Nat} : v ∈ atlas.decisions ↔ atlas.isDecision v = true := by
  rw [decisions, List.mem_filter, ids, List.mem_range]
  exact and_iff_right_of_imp lt_size_of_isDecision

theorem mem_ranking_iff {v rank : Nat} :
    (v, rank) ∈ atlas.ranking ↔
      atlas.isDecision v = true ∧ IsLeast (atlas.routeCounts v) rank := by
  rw [← setOf_affords_eq, ← FlowGraph.ranks_eq_some_iff, ← mem_decisions, ranking]
  simp only [List.mem_filterMap, Option.map_eq_some_iff, Prod.mk.injEq]
  constructor
  · intro hmem
    rcases hmem with ⟨w, hw, r, hr, rfl, rfl⟩
    exact ⟨hw, hr⟩
  · intro hleast
    rcases hleast with ⟨hv, hrank⟩
    exact ⟨v, hv, rank, hrank, rfl, rfl⟩

theorem mem_map_fst_ranking_iff {v : Nat} :
    v ∈ atlas.ranking.map Prod.fst ↔ atlas.isDecision v = true ∧ atlas.Within v := by
  rw [within_iff_reachable, ← FlowGraph.exists_ranks_iff atlas.isDecision]
  simp only [List.mem_map, Prod.exists, exists_and_right, exists_eq_right, mem_ranking_iff,
    exists_and_left, FlowGraph.ranks_eq_some_iff, setOf_affords_eq]

/-- Each ranked decision is listed once, in ascending order. -/
theorem pairwise_map_fst_ranking (atlas : Atlas) :
    (atlas.ranking.map Prod.fst).Pairwise (· < ·) := by
  rw [List.pairwise_map, ranking]
  have hdecisions : atlas.decisions.Pairwise (· < ·) :=
    List.pairwise_lt_range.sublist List.filter_sublist
  refine hdecisions.filterMap _ ?_
  intro u v huv x hx y hy
  obtain ⟨r, -, rfl⟩ := Option.map_eq_some_iff.1 hx
  obtain ⟨s, -, rfl⟩ := Option.map_eq_some_iff.1 hy
  exact huv

/-- **Ranks are least counts.**  The ranking lists exactly the decisions that
some route reaches, each once, and the rank of a decision is the least number
of decisions on a route to it. -/
theorem ranking_isLeast (atlas : Atlas) :
    (atlas.ranking.map Prod.fst).Pairwise (· < ·) ∧
    (∀ v, v ∈ atlas.ranking.map Prod.fst ↔ atlas.isDecision v = true ∧ atlas.Within v) ∧
    ∀ v rank, (v, rank) ∈ atlas.ranking → IsLeast (atlas.routeCounts v) rank := by
  refine ⟨pairwise_map_fst_ranking atlas, fun v => mem_map_fst_ranking_iff, ?_⟩
  intro v rank hmem
  exact (mem_ranking_iff.1 hmem).2

end

end Atlas

end Concolic
