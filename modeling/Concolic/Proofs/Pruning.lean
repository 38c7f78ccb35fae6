import Concolic.Atlas.Query
import Concolic.Proofs.Recording
import Mathlib

/-!
# What a query leaves out

A query follows a recorded path back from its target and drops what dominates
the target.  A path comes from a run, and a run that began at the origin walks a
route of the atlas, of which the path keeps the decisions.  So whatever lies on
every route to the target lies on this one: the decisions of the path are those
that the query keeps, and the decisions that dominate the target.  The edges on
which dominance is judged are those that the atlas has now, and they contain the
steps of every run so far.

## Main results

* `Atlas.route_of_prefix`: the initial parts of a run are routes.
* `Atlas.mem_ancestors_iff`: what a query keeps.
* `Atlas.path_eq_ancestors_union_dominators`: what a query leaves out.
-/

namespace Concolic

/-- An initial part of a filtered list is the filtered form of an initial part
that ends with the same member. -/
theorem exists_prefix_filter_eq {α : Type} {keep : α → Bool} {xs kept : List α} {last : α}
    (hkept : kept <+: xs.filter keep) (hlast : kept.getLast? = some last) :
    ∃ front, front <+: xs ∧ front.filter keep = kept ∧ front.getLast? = some last := by
  obtain ⟨init, rfl⟩ := List.getLast?_eq_some_iff.1 hlast
  obtain ⟨rest, hrest⟩ := hkept
  rw [List.append_assoc] at hrest
  obtain ⟨left, right, rfl, hleft, hright⟩ := List.filter_eq_append_iff.1 hrest.symm
  obtain ⟨skipped, tail, rfl, hskipped, hlastKept, -⟩ := List.filter_eq_cons_iff.1 hright
  have hnone : skipped.filter keep = [] := by
    rw [List.filter_eq_nil_iff]
    exact hskipped
  refine ⟨left ++ skipped ++ [last], ⟨tail, by simp⟩, ?_, by simp⟩
  rw [List.filter_append, List.filter_append, hleft, hnone]
  simp [hlastKept]

namespace Atlas

section

variable {settings : Settings} {events : List Event} {atlas : Atlas}

/-! ## Runs and routes -/

/-- The vertices of observed clauses. -/
theorem mem_itinerary_iff (h : (empty settings).replay events = .ok atlas)
    {clauses : List Clause} (hobserved : ∀ clause ∈ clauses, Observes events clause)
    {v : Nat} :
    v ∈ atlas.itinerary clauses ↔ ∃ clause ∈ clauses, atlas.clause? v = some clause := by
  rw [itinerary, List.mem_map]
  refine exists_congr fun clause => and_congr_right fun hclause => ?_
  have hmem := (mem_clauses_iff h).2 (hobserved clause hclause)
  rw [clause?_eq_some_iff]
  exact (and_iff_right hmem).symm

/-- Read back, what was observed up to a clause begins with the vertex of the clause. -/
theorem reverse_itinerary_concat {v : Nat} {clause : Clause}
    (hv : atlas.clause? v = some clause) (front : List Clause) :
    (atlas.itinerary (front ++ [clause])).reverse =
      v :: (atlas.itinerary front).reverse := by
  simp [itinerary, (clause?_eq_some_iff.1 hv).2]

/-- **Runs are routes**: what a run observed first, as far as one likes, is a
route if the run began at the origin. -/
theorem route_of_prefix (h : (empty settings).replay events = .ok atlas) {trace : Trace}
    (htrace : trace ∈ runs events) (hstart : trace.head? = atlas.origin?.bind atlas.clause?)
    {front : Trace} (hfront : front <+: trace) (hne : front ≠ []) :
    atlas.Route (atlas.itinerary front).reverse := by
  have hvertex : ∀ clause ∈ trace,
      atlas.clause? (atlas.clauses.position clause) = some clause :=
    fun clause hclause => clause?_position h ⟨trace, htrace, hclause⟩
  induction front using List.reverseRecOn with
  | nil => exact absurd rfl hne
  | append_singleton front last ih =>
      rcases List.eq_nil_or_concat front with rfl | ⟨init, before, rfl⟩
      · have hhead : trace.head? = some last := by
          obtain ⟨rest, rfl⟩ := hfront
          rfl
        rw [hhead] at hstart
        obtain ⟨v, horigin, hv⟩ := Option.bind_eq_some_iff.1 hstart.symm
        have hposition := (clause?_eq_some_iff.1 hv).2
        have hroute := Route.origin horigin
        rw [← hposition] at hroute
        exact hroute
      · rw [List.concat_eq_append] at hfront ih
        have hinit : init ++ [before] <+: trace :=
          (List.prefix_append _ _).trans hfront
        have hroute := ih hinit (by simp)
        have hpair : [before, last] <:+: trace := by
          obtain ⟨rest, hrest⟩ := hfront
          exact ⟨init, rest, by simpa using hrest⟩
        have hstep : atlas.clauses.position last ∈
            atlas.successors (atlas.clauses.position before) :=
          (mem_successors_iff h).2 ⟨before, last, ⟨trace, htrace, hpair⟩,
            hvertex before (hpair.mem (by simp)), hvertex last (hpair.mem (by simp))⟩
        simp only [itinerary, List.map_append, List.map_cons, List.map_nil,
          List.reverse_append, List.reverse_cons, List.reverse_nil, List.nil_append,
          List.cons_append, List.concat_eq_append] at hroute ⊢
        exact hroute.step hstep

/-- The decisions of a path to a vertex lie on a route there, and no other
decisions do. -/
theorem exists_route_of_path (h : (empty settings).replay events = .ok atlas)
    {trace : Trace} (htrace : trace ∈ runs events)
    (hstart : trace.head? = atlas.origin?.bind atlas.clause?) {path : Path}
    (hpath : path <+: trace.decisions) {v : Nat} {clause : Clause}
    (hv : atlas.clause? v = some clause) (hlast : path.getLast? = some clause) :
    ∃ back, atlas.Route (v :: back) ∧
      ∀ u, u ∈ v :: back ∧ atlas.isDecision u = true ↔
        ∃ c ∈ path, atlas.clause? u = some c := by
  obtain ⟨front, hfront, hdecisions, hfrontLast⟩ := exists_prefix_filter_eq hpath hlast
  have hobserved : ∀ c ∈ front, Observes events c :=
    fun c hc => ⟨trace, htrace, hfront.mem hc⟩
  obtain ⟨init, rfl⟩ := List.getLast?_eq_some_iff.1 hfrontLast
  have hroute := route_of_prefix h htrace hstart hfront (by simp)
  rw [reverse_itinerary_concat hv] at hroute
  refine ⟨_, hroute, ?_⟩
  intro u
  rw [← reverse_itinerary_concat hv, List.mem_reverse, mem_itinerary_iff h hobserved,
    ← hdecisions]
  constructor
  · intro hu
    rcases hu with ⟨⟨c, hc, huc⟩, hkind⟩
    rw [isDecision_of_clause? huc] at hkind
    exact ⟨c, List.mem_filter.2 ⟨hc, hkind⟩, huc⟩
  · intro hu
    rcases hu with ⟨c, hc, huc⟩
    obtain ⟨hmem, hkind⟩ := List.mem_filter.1 hc
    rw [isDecision_of_clause? huc]
    exact ⟨⟨c, hmem, huc⟩, hkind⟩

/-! ## What a query keeps -/

/-- A limit that the path keeps is no limit for its ancestors. -/
theorem ancestors_eq_filter {target limit : Nat} {path : Path}
    (hlimit : path.length ≤ limit) :
    atlas.ancestors target path limit =
      (Roster.ofList (atlas.itinerary path).reverse).toList.filter fun v =>
        v != target && !atlas.dominates v target := by
  have hlength : ((atlas.itinerary path).reverse.filter fun v =>
      v != target && !atlas.dominates v target).length ≤ limit := by
    refine (List.length_filter_le _ _).trans ?_
    rw [List.length_reverse, itinerary, List.length_map]
    exact hlimit
  rw [Roster.filter_toList_ofList]
  exact Roster.take_toList_ofList hlength

/-- **What a query keeps** of a path that is not too long: all but the target and
its dominators. -/
theorem mem_ancestors_iff {target limit : Nat} {path : Path} (hlimit : path.length ≤ limit)
    {v : Nat} :
    v ∈ atlas.ancestors target path limit ↔
      v ∈ atlas.itinerary path ∧ v ≠ target ∧ atlas.dominates v target = false := by
  rw [ancestors_eq_filter hlimit, List.mem_filter, Roster.mem_toList, Roster.mem_ofList,
    List.mem_reverse, Bool.and_eq_true, bne_iff_ne, Bool.not_eq_true']

/-- The queries about a target stand in the order of its paths. -/
theorem map_path_queries (target limit : Nat) :
    (atlas.queries target limit).map Query.path = (atlas.recordsAt target).paths := by
  rw [queries, List.map_map, Records.paths]
  rfl

theorem mem_queries_iff {target limit : Nat} {query : Query} :
    query ∈ atlas.queries target limit ↔
      query.target = target ∧
        query.ancestors = atlas.ancestors target query.path limit ∧
          (query.path, query.trace) ∈ (atlas.recordsAt target).entries := by
  rw [queries, List.mem_map]
  constructor
  · intro hquery
    rcases hquery with ⟨entry, hentry, rfl⟩
    exact ⟨rfl, rfl, hentry⟩
  · intro hquery
    obtain ⟨htarget, hkept, hentry⟩ := hquery
    refine ⟨(query.path, query.trace), hentry, ?_⟩
    rw [← hkept, ← htarget]

/-- A recorded path leads to the clause of its vertex, and is no longer than the
atlas is deep. -/
theorem followed_of_mem_queries (h : (empty settings).replay events = .ok atlas)
    {target limit : Nat} {query : Query} (hquery : query ∈ atlas.queries target limit) :
    ∃ clause, atlas.clause? target = some clause ∧ query.path.getLast? = some clause ∧
      query.trace ∈ runs events ∧ query.path <+: query.trace.decisions ∧
        query.path.length ≤ atlas.depth := by
  have hentry := (mem_queries_iff.1 hquery).2.2
  have hpath : query.path ∈ (atlas.recordsAt target).paths := List.mem_map_of_mem hentry
  obtain ⟨clause, hclause, hlast, -⟩ := (mem_paths_recordsAt h).1 hpath
  have hfollowed := ((mem_entries_recordsAt h hclause).1 hentry).2.followed
  have hlength : query.path.length ≤ atlas.depth :=
    (isGreatest_length_paths h).2 (Or.inr ⟨target, query.path, hpath, rfl⟩)
  exact ⟨clause, hclause, hlast, hfollowed.1, hfollowed.2, hlength⟩

/-- The path of a query leads along a route if its run began at the origin. -/
theorem exists_route_of_mem_queries (h : (empty settings).replay events = .ok atlas)
    {target limit : Nat} {query : Query} (hquery : query ∈ atlas.queries target limit)
    (hstart : query.trace.head? = atlas.origin?.bind atlas.clause?) :
    ∃ back, atlas.Route (target :: back) ∧
      ∀ u, u ∈ target :: back ∧ atlas.isDecision u = true ↔
        ∃ c ∈ query.path, atlas.clause? u = some c := by
  obtain ⟨clause, htarget, hlast, htrace, hpath, -⟩ := followed_of_mem_queries h hquery
  exact exists_route_of_path h htrace hstart hpath htarget hlast

/-- A query about a target within reach keeps the clauses of its path that do not
dominate the target. -/
theorem mem_ancestors_of_mem_queries_iff (h : (empty settings).replay events = .ok atlas)
    {target limit : Nat} (hlimit : atlas.depth ≤ limit) {query : Query}
    (hquery : query ∈ atlas.queries target limit) (hwithin : atlas.Within target) {v : Nat} :
    v ∈ query.ancestors ↔
      (∃ c ∈ query.path, atlas.clause? v = some c) ∧ atlas.dominates v target = false := by
  obtain ⟨-, -, -, htrace, hpath, hlength⟩ := followed_of_mem_queries h hquery
  have hobserved : ∀ c ∈ query.path, Observes events c :=
    fun c hc => (Followed.decision ⟨query.trace, htrace, hpath⟩ hc).2
  rw [(mem_queries_iff.1 hquery).2.1, mem_ancestors_iff (hlength.trans hlimit),
    mem_itinerary_iff h hobserved]
  refine and_congr_right fun _ => and_iff_right_of_imp ?_
  rintro hfalse rfl
  rw [dominates_self hwithin] at hfalse
  cases hfalse

/-! ## What a query leaves out -/

/-- **A query leaves out exactly the dominators.**  Take a query about a target
that may keep as many ancestors as the atlas is deep, and whose run began at the
origin.  The decisions of its path are the ancestors that it keeps together with
the decisions that dominate the target, and no decision is both.  So what it
leaves out lies on every route to the target, a decision on every such route is
on the path, and around each ancestor that it keeps there is a route. -/
theorem path_eq_ancestors_union_dominators
    (h : (empty settings).replay events = .ok atlas) {target limit : Nat}
    (hlimit : atlas.depth ≤ limit) {query : Query}
    (hquery : query ∈ atlas.queries target limit)
    (hstart : query.trace.head? = atlas.origin?.bind atlas.clause?) :
    {v | ∃ clause ∈ query.path, atlas.find? clause = some v} =
        {v | v ∈ query.ancestors} ∪
          {v | atlas.isDecision v = true ∧ atlas.dominates v target = true} ∧
    Disjoint {v | v ∈ query.ancestors}
      {v | atlas.isDecision v = true ∧ atlas.dominates v target = true} ∧
    (∀ clause ∈ query.path, ∀ v, atlas.find? clause = some v → v ∉ query.ancestors →
      atlas.Within target ∧ ∀ back, atlas.Route (target :: back) → v ∈ target :: back) ∧
    (∀ v, atlas.isDecision v = true →
      (∀ back, atlas.Route (target :: back) → v ∈ target :: back) →
        ∃ clause ∈ query.path, atlas.find? clause = some v) ∧
    (∀ v ∈ query.ancestors, ∃ back, atlas.Route (target :: back) ∧ v ∉ target :: back) := by
  obtain ⟨back, hroute, hdecisions⟩ := exists_route_of_mem_queries h hquery hstart
  have hwithin : atlas.Within target := ⟨back, hroute⟩
  have hkept : ∀ v, v ∈ query.ancestors ↔
      (∃ c ∈ query.path, atlas.clause? v = some c) ∧ atlas.dominates v target = false :=
    fun v => mem_ancestors_of_mem_queries_iff h hlimit hquery hwithin
  -- a decision on all routes is on the one that the path came from
  have hcovers : ∀ v, atlas.isDecision v = true → atlas.dominates v target = true →
      ∃ c ∈ query.path, atlas.clause? v = some c := by
    intro v hkind hdominates
    have hmem := (dominates_eq_true_iff.1 hdominates).2 back hroute
    exact (hdecisions v).1 ⟨hmem, hkind⟩
  simp only [find?_eq_some_iff]
  refine ⟨?_, ?_, ?_, ?_, ?_⟩
  · ext v
    show (∃ c ∈ query.path, atlas.clause? v = some c) ↔ v ∈ query.ancestors ∨
      atlas.isDecision v = true ∧ atlas.dominates v target = true
    constructor
    · intro hv
      cases hdominates : atlas.dominates v target with
      | false => exact Or.inl ((hkept v).2 ⟨hv, hdominates⟩)
      | true => exact Or.inr ⟨((hdecisions v).2 hv).2, rfl⟩
    · intro hv
      rcases hv with hancestor | ⟨hkind, hdominates⟩
      · exact ((hkept v).1 hancestor).1
      · exact hcovers v hkind hdominates
  · refine Set.disjoint_left.2 ?_
    intro v hancestor hdominator
    exact Bool.eq_false_iff.1 ((hkept v).1 hancestor).2 hdominator.2
  · intro c hc v hv hdropped
    have hdominates : atlas.dominates v target = true := by
      rw [← Bool.not_eq_false]
      intro hfalse
      exact hdropped ((hkept v).2 ⟨⟨c, hc, hv⟩, hfalse⟩)
    exact dominates_eq_true_iff.1 hdominates
  · intro v hkind hroutes
    exact hcovers v hkind (dominates_eq_true_iff.2 ⟨hwithin, hroutes⟩)
  · intro v hancestor
    exact exists_route_around hwithin ((hkept v).1 hancestor).2

end

/-- A condition under which a run goes on. -/
def ready : Clause :=
  .jump 1 (.equal (.var "ready") (.bool true))

/-- Whether the fast way is taken. -/
def fork (fast : Bool) : Clause :=
  .jump 2 (.equal (.var "fast") (.bool fast))

/-- A decision behind the place where both ways meet. -/
def arrival : Clause :=
  .jump 4 (.equal (.var "arrived") (.bool true))

/-- A run that starts under a condition, takes one of two ways, and arrives. -/
def journey (fast : Bool) : Trace :=
  [.effect 0 "fast = input()", ready, fork fast, .effect 3 "meet", arrival]

/-- Both ways were taken. -/
def journeys : List Event :=
  [.run (journey true), .run (journey false)]

/-- The query about the arrival keeps the way that was taken, around which there
is another, and leaves out the condition before it. -/
theorem path_eq_ancestors_union_dominators_journeys :
    ∃ atlas query, (empty {}).replay journeys = .ok atlas ∧ query ∈ atlas.queries 4 3 ∧
      query.ancestors = [2] ∧ atlas.dominates 1 4 = true ∧
      ∃ back, atlas.Route (4 :: back) ∧ 2 ∉ 4 :: back := by
  have hvalue : ((empty {}).replay journeys).map (fun atlas =>
      (atlas.depth, atlas.origin?.bind atlas.clause?, (atlas.queries 4 3).head?,
        atlas.find? ready)) =
        .ok (3, some (.effect 0 "fast = input()"),
          some ⟨4, [2], journey true, [ready, fork true, arrival]⟩, some 1) := by
    cbv
  obtain ⟨atlas, h, hvalue⟩ := exists_of_map_eq_ok hvalue
  simp only [Prod.mk.injEq] at hvalue
  rcases hvalue with ⟨hdepth, horigin, hhead, hready⟩
  have hquery := List.mem_of_head? hhead
  obtain ⟨hunion, -, -, -, haround⟩ :=
    path_eq_ancestors_union_dominators h (Nat.le_of_eq hdepth) hquery horigin.symm
  have hpart : 1 ∈ [2] ∨ atlas.isDecision 1 = true ∧ atlas.dominates 1 4 = true := by
    have hmem := Set.ext_iff.1 hunion 1
    exact hmem.1 ⟨ready, List.mem_cons_self, hready⟩
  have hdominates : atlas.dominates 1 4 = true :=
    (hpart.resolve_left (by decide)).2
  exact ⟨atlas, _, h, hquery, rfl, hdominates, haround 2 List.mem_cons_self⟩

end Atlas

end Concolic
