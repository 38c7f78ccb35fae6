import Concolic.Atlas.Summary
import Concolic.Proofs.Arrival
import Concolic.Proofs.Outcomes
import Concolic.Proofs.Routes
import Mathlib.Data.Set.Card

/-!
# What an atlas merges

The graph of an atlas can be read off the traces alone.  Put them one after the
other: the vertices are the newcomers among the clauses, numbered as they come.
Two vertices are joined if their clauses stand next to each other in some trace,
which holds of the list of successors as well as of the list of predecessors.
Closing a decision from outside changes none of this, and neither does a trace
without clauses.

## Main results

* `Atlas.find?_iff_newcomer`: the number of a vertex, said of the traces.
* `Atlas.encard_follows`: the number of edges, said of the traces.
* `Atlas.merged_iff_observed`: the whole graph, said of the traces.
-/

namespace Concolic

namespace Atlas

section

variable {settings : Settings} {events : List Event} {atlas : Atlas}

/-! ## Vertices -/

/-- A clause has a vertex exactly if the vertex has the clause. -/
theorem find?_eq_some_iff {clause : Clause} {v : Nat} :
    atlas.find? clause = some v ↔ atlas.clause? v = some clause :=
  Roster.position?_eq_some_iff

/-- A run gives a vertex to each of its clauses. -/
theorem Grows.find?_of_mem {next : Atlas} {trace : Trace} (h : Grows atlas trace next)
    {clause : Clause} (hclause : clause ∈ trace) :
    next.find? clause = some (next.clauses.position clause) :=
  find?_eq_some_iff.2 ((h.position_iff hclause).1 rfl)

/-- **Vertices are newcomers**: the vertex of a clause is its number among the
distinct clauses of all traces. -/
theorem find?_iff_newcomer (h : (empty settings).replay events = .ok atlas)
    {clause : Clause} {v : Nat} :
    atlas.find? clause = some v ↔ Newcomer (runs events).flatten v clause := by
  rw [find?_eq_some_iff, clause?, clauses_replay h]
  exact Roster.get?_ofList_iff

/-- The origin is the vertex of the first clause of all. -/
theorem origin?_replay (h : (empty settings).replay events = .ok atlas) :
    atlas.origin? = ((runs events).findSome? List.head?).bind atlas.find? := by
  rw [← List.head?_flatten]
  cases hclauses : (runs events).flatten with
  | nil =>
      have hsize : atlas.size = 0 := by
        rw [size, clauses_replay h, hclauses]
        rfl
      rw [origin?, if_neg (by omega)]
      rfl
  | cons clause rest =>
      have hfirst : atlas.find? clause = some 0 := by
        rw [find?_iff_newcomer h, hclauses]
        exact ⟨[], rest, rfl, List.not_mem_nil, rfl⟩
      have hsize : 0 < atlas.size := lt_size_of_clause? (find?_eq_some_iff.1 hfirst)
      rw [origin?, if_pos hsize, List.head?_cons, Option.bind_some, hfirst]

/-! ## Edges -/

/-- The clauses of an edge determine its ends. -/
theorem injOn_position_follows (h : (empty settings).replay events = .ok atlas) :
    {pair : Clause × Clause | Follows events pair.1 pair.2}.InjOn
      (Prod.map atlas.clauses.position atlas.clauses.position) := by
  intro pair hpair other hother heq
  obtain ⟨hfirst, hsecond⟩ := Prod.mk.inj heq
  refine Prod.ext ?_ ?_
  · have hpairFirst := clause?_position h hpair.observes.1
    rw [hfirst, clause?_position h hother.observes.1] at hpairFirst
    exact (Option.some.inj hpairFirst).symm
  · have hpairSecond := clause?_position h hpair.observes.2
    rw [hsecond, clause?_position h hother.observes.2] at hpairSecond
    exact (Option.some.inj hpairSecond).symm

theorem image_position_follows (h : (empty settings).replay events = .ok atlas) :
    Prod.map atlas.clauses.position atlas.clauses.position ''
        {pair : Clause × Clause | Follows events pair.1 pair.2} =
      atlas.edges.toList.toFinset := by
  ext ⟨u, v⟩
  rw [List.coe_toFinset, Set.mem_ofPred_eq, Roster.mem_toList, mem_edges_iff h]
  constructor
  · intro hedge
    rcases hedge with ⟨⟨first, second⟩, hfollows, heq⟩
    obtain ⟨hu, hv⟩ := Prod.mk.inj heq
    obtain ⟨hfirst, hsecond⟩ := Follows.observes hfollows
    exact ⟨first, second, hfollows, hu ▸ clause?_position h hfirst,
      hv ▸ clause?_position h hsecond⟩
  · intro hedge
    rcases hedge with ⟨first, second, hfollows, hu, hv⟩
    exact ⟨(first, second), hfollows,
      Prod.ext (clause?_eq_some_iff.1 hu).2 (clause?_eq_some_iff.1 hv).2⟩

/-- **Edges are counted once**: there are as many as distinct pairs of clauses
that some run observed one directly after the other. -/
theorem encard_follows (h : (empty settings).replay events = .ok atlas) :
    {pair : Clause × Clause | Follows events pair.1 pair.2}.encard = atlas.edges.size := by
  rw [← (injOn_position_follows h).encard_image, image_position_follows h,
    Set.encard_coe_eq_coe_finsetCard, List.toFinset_card_of_nodup atlas.edges.nodup]
  rfl

theorem mem_edgeList {u v : Nat} :
    (u, v) ∈ atlas.edgeList ↔ u < atlas.size ∧ v ∈ atlas.successors u := by
  simp [edgeList, ids]

theorem nodup_edgeList (atlas : Atlas) : atlas.edgeList.Nodup := by
  refine List.nodup_flatMap.2 ⟨?_, ?_⟩
  · intro u _
    have hsuccessors : (atlas.successors u).Nodup :=
      (pairwise_ascending _ _).imp Nat.ne_of_lt
    exact hsuccessors.map (Prod.mk_right_injective u)
  · refine List.nodup_range.imp ?_
    intro u w huw edge hu hw
    obtain ⟨v, -, rfl⟩ := List.mem_map.1 hu
    obtain ⟨v', -, heq⟩ := List.mem_map.1 hw
    exact huw (Prod.mk.inj heq).1.symm

/-- Listing the successors of every vertex lists every edge once. -/
theorem length_edgeList (h : (empty settings).replay events = .ok atlas) :
    atlas.edgeList.length = atlas.edges.size := by
  have hperm : atlas.edgeList.Perm atlas.edges.toList := by
    refine (List.perm_ext_iff_of_nodup (nodup_edgeList atlas) atlas.edges.nodup).2 ?_
    intro edge
    rw [mem_edgeList, mem_successors, Roster.mem_toList]
    constructor
    · exact fun hedge => hedge.2.2
    · intro hedge
      obtain ⟨first, second, -, hu, hv⟩ := (mem_edges_iff h).1 hedge
      exact ⟨lt_size_of_clause? hu, lt_size_of_clause? hv, hedge⟩
  exact hperm.length_eq

/-! ## Depth -/

/-- The depth is the largest number of decisions in one run. -/
theorem isGreatest_depth (h : (empty settings).replay events = .ok atlas) :
    IsGreatest (insert 0 {count | ∃ trace ∈ runs events,
      trace.countP Clause.isDecision = count}) atlas.depth := by
  refine replay_induction (P := fun events atlas => IsGreatest (insert 0 {count |
    ∃ trace ∈ runs events, trace.countP Clause.isDecision = count}) atlas.depth) ?_ ?_ ?_ h
  · simp [runs, empty]
  · intro events atlas trace next _ ih _ hgrows
    have hdepth : trace.depth = trace.countP Clause.isDecision :=
      List.countP_eq_length_filter.symm
    have hcounts : (insert 0 {count | ∃ other ∈ runs (events ++ [.run trace]),
        other.countP Clause.isDecision = count} : Set Nat) =
          insert trace.depth (insert 0 {count | ∃ other ∈ runs events,
            other.countP Clause.isDecision = count}) := by
      ext count
      simp only [runs_append_run, List.mem_append, List.mem_singleton, or_and_right,
        exists_or, exists_eq_left, Set.mem_insert_iff, Set.mem_ofPred_eq, hdepth,
        eq_comm (a := count)]
      rw [← or_assoc, or_comm]
    rw [hgrows.depth, Nat.max_comm, hcounts]
    exact ih.insert trace.depth
  · intro events atlas clause v _ ih _ _
    rw [runs_append_close]
    exact ih

/-! ## The whole graph -/

/-- **Merging by value, said of the traces.**  The vertex of a clause is its
number among the distinct clauses in order of first observation, and it has that
clause and its kind.  Successors and predecessors are two views of the pairs of
clauses that some run observed one directly after the other, and these pairs are
as many as the edges.  The entries are the vertices at which some run began, the
origin is that of the first run that observed anything, and the depth is the
largest number of decisions in one run. -/
theorem merged_iff_observed (h : (empty settings).replay events = .ok atlas) :
    (∀ clause v, atlas.find? clause = some v ↔ Newcomer (runs events).flatten v clause) ∧
    (∀ clause v, atlas.find? clause = some v ↔ atlas.clause? v = some clause) ∧
    (∀ clause v, atlas.find? clause = some v → atlas.isDecision v = clause.isDecision) ∧
    (∀ u v, v ∈ atlas.successors u ↔ u ∈ atlas.predecessors v) ∧
    (∀ u v, v ∈ atlas.successors u ↔ ∃ first second, Follows events first second ∧
      atlas.find? first = some u ∧ atlas.find? second = some v) ∧
    (∀ v, v ∈ atlas.entryList ↔ ∃ clause, Opens events clause ∧
      atlas.find? clause = some v) ∧
    atlas.origin? = ((runs events).findSome? List.head?).bind atlas.find? ∧
    IsGreatest (insert 0 {count | ∃ trace ∈ runs events,
      trace.countP Clause.isDecision = count}) atlas.depth ∧
    {pair : Clause × Clause | Follows events pair.1 pair.2}.encard = atlas.extent.edges ∧
    atlas.edgeList.length = atlas.extent.edges := by
  refine ⟨fun _ _ => find?_iff_newcomer h, fun _ _ => find?_eq_some_iff, ?_, ?_, ?_, ?_,
    origin?_replay h, isGreatest_depth h, encard_follows h, length_edgeList h⟩
  · intro clause v hv
    exact isDecision_of_clause? (find?_eq_some_iff.1 hv)
  · intro u v
    exact (mem_predecessors_iff h).symm
  · intro u v
    simp only [find?_eq_some_iff]
    exact mem_successors_iff h
  · intro v
    simp only [find?_eq_some_iff]
    rw [mem_entryList, mem_entries_iff h]
    refine and_iff_right_of_imp ?_
    intro hentry
    obtain ⟨clause, -, hv⟩ := hentry
    exact lt_size_of_clause? hv

end

/-- Runs of the sample program that part and meet again, and between them a
decision closed from outside and a run that observed nothing. -/
def rejoinedRuns : List Event :=
  [.run (Tour.sampleRun 5 3), .close (Tour.comparison true), .run [],
    .run (Tour.sampleRun 0 1)]

/-- The return is the fifth clause to be observed, and both runs share it. -/
theorem merged_iff_observed_rejoined :
    ∃ atlas, (empty {}).replay rejoinedRuns = .ok atlas ∧
      atlas.find? (.effect 6 "return") = some 4 ∧
      (4 ∈ atlas.successors 3 ∧ 4 ∈ atlas.successors 7) := by
  have hvalue : ((empty {}).replay rejoinedRuns).map (fun atlas =>
      (atlas.find? (.effect 5 "r = 0"), atlas.find? (Tour.selection 2))) =
        .ok (some 7, some 3) := by
    rfl
  obtain ⟨atlas, h, hvalue⟩ := exists_of_map_eq_ok hvalue
  obtain ⟨hassigned, hselected⟩ := Prod.mk.inj hvalue
  obtain ⟨hfind, -, -, -, hsuccessors, -⟩ := merged_iff_observed h
  have hreturn : atlas.find? (.effect 6 "return") = some 4 :=
    (hfind _ 4).2 ⟨(Tour.sampleRun 5 3).dropLast,
      Tour.sampleRun 0 1, rfl, by decide, by decide⟩
  refine ⟨atlas, h, hreturn, ?_, ?_⟩
  · refine (hsuccessors 3 4).2 ⟨Tour.selection 2, .effect 6 "return", ?_, hselected, hreturn⟩
    exact ⟨Tour.sampleRun 5 3, by simp [rejoinedRuns, runs, Event.trace?], by decide⟩
  · refine (hsuccessors 7 4).2 ⟨.effect 5 "r = 0", .effect 6 "return", ?_, hassigned, hreturn⟩
    exact ⟨Tour.sampleRun 0 1, by simp [rejoinedRuns, runs, Event.trace?], by decide⟩

end Atlas

end Concolic
