import Concolic.Proofs.Layers
import Concolic.Proofs.Reordering

/-!
# How far a search gets

A search takes the open decisions layer after layer, up to the depth of the atlas,
which is the largest number of decisions in one run.  A run that began at the
origin walks a route, so what it observed has a rank, and no decision in it has a
rank above the length of the path to it.  If all runs began alike then every
decision was observed by such a run, and the search visits all that are open.

Runs may begin elsewhere.  The decisions that only such runs observed are the
*strays*.  One of them can be within reach through the clauses that its run shares
with others, on a route that no single run took, and such a route can have more
decisions than any run.  But all ranks below one that occurs occur, and above the
depth they are ranks of strays, so the depth is exceeded by no more than the number
of strays.

## Main results

* `Atlas.exists_rank_le_length`: a path from the origin bounds the rank of its end.
* `Atlas.search_of_single_entry`: a search of runs that began alike is complete.
* `Atlas.rank_le_depth_add_strays`: how far ranks exceed the depth.
-/

namespace Concolic

namespace Atlas

/-- Some run that began at the origin observed the clause. -/
def SeenFromOrigin (atlas : Atlas) (events : List Event) (clause : Clause) : Prop :=
  ∃ trace ∈ runs events, trace.head? = atlas.origin?.bind atlas.clause? ∧ clause ∈ trace

instance (atlas : Atlas) (events : List Event) (clause : Clause) :
    Decidable (atlas.SeenFromOrigin events clause) :=
  inferInstanceAs (Decidable (∃ trace ∈ runs events,
    trace.head? = atlas.origin?.bind atlas.clause? ∧ clause ∈ trace))

section

variable {settings : Settings} {events : List Event} {atlas : Atlas}
variable (h : (empty settings).replay events = .ok atlas)

include h

/-! ## Runs from the origin -/

/-- What a run from the origin observed up to a clause is a route to its vertex, with
the same number of decisions. -/
theorem exists_route_of_observed {trace : Trace} (htrace : trace ∈ runs events)
    (hstart : trace.head? = atlas.origin?.bind atlas.clause?) {front : Trace}
    {clause : Clause} (hfront : front ++ [clause] <+: trace) {v : Nat}
    (hv : atlas.clause? v = some clause) :
    ∃ back, atlas.Route (v :: back) ∧ (v :: back).countP atlas.isDecision =
      (front ++ [clause]).countP Clause.isDecision := by
  have hobserved : ∀ c ∈ front ++ [clause], Observes events c :=
    fun c hc => ⟨trace, htrace, hfront.mem hc⟩
  refine ⟨(atlas.itinerary front).reverse, ?_, ?_⟩
  · rw [← reverse_itinerary_concat hv]
    exact route_of_prefix h htrace hstart hfront (by simp)
  · rw [← reverse_itinerary_concat hv, List.countP_reverse, countP_itinerary h hobserved]

theorem within_of_seenFromOrigin {v : Nat} {clause : Clause}
    (hv : atlas.clause? v = some clause) (hseen : atlas.SeenFromOrigin events clause) :
    atlas.Within v := by
  obtain ⟨trace, htrace, hstart, hmem⟩ := hseen
  obtain ⟨front, rest, rfl⟩ := List.append_of_mem hmem
  have hfront : front ++ [clause] <+: front ++ clause :: rest := ⟨rest, by simp⟩
  obtain ⟨back, hroute, -⟩ := exists_route_of_observed h htrace hstart hfront hv
  exact ⟨back, hroute⟩

/-- **A path from the origin bounds the rank of its end.** -/
theorem exists_rank_le_length {trace : Trace} (htrace : trace ∈ runs events)
    (hstart : trace.head? = atlas.origin?.bind atlas.clause?) {path : Path}
    (hpath : path <+: trace.decisions) {v : Nat} {clause : Clause}
    (hv : atlas.clause? v = some clause) (hlast : path.getLast? = some clause) :
    ∃ rank, (v, rank) ∈ atlas.ranking ∧ rank ≤ path.length := by
  have hkind : atlas.isDecision v = true := by
    rw [isDecision_of_clause? hv]
    exact (List.mem_filter.1 (hpath.mem (List.mem_of_getLast? hlast))).2
  obtain ⟨front, hfront, hdecisions, hfrontLast⟩ := exists_prefix_filter_eq hpath hlast
  obtain ⟨init, rfl⟩ := List.getLast?_eq_some_iff.1 hfrontLast
  obtain ⟨back, hroute, hcount⟩ := exists_route_of_observed h htrace hstart hfront hv
  obtain ⟨rank, hrank, hle⟩ := exists_rank_le_countP hkind hroute
  rw [hcount, List.countP_eq_length_filter, hdecisions] at hle
  exact ⟨rank, hrank, hle⟩

/-- The depth bounds the rank of a decision that a run from the origin observed. -/
theorem exists_rank_le_depth {v : Nat} {clause : Clause}
    (hv : atlas.clause? v = some clause) (hkind : clause.isDecision = true)
    (hseen : atlas.SeenFromOrigin events clause) :
    ∃ rank, (v, rank) ∈ atlas.ranking ∧ rank ≤ atlas.depth := by
  obtain ⟨trace, htrace, hstart, hmem⟩ := hseen
  have hdecision : clause ∈ trace.decisions := List.mem_filter.2 ⟨hmem, hkind⟩
  obtain ⟨front, rest, hsplit⟩ := List.append_of_mem hdecision
  have hpath : front ++ [clause] <+: trace.decisions := ⟨rest, by simp [hsplit]⟩
  obtain ⟨rank, hrank, hle⟩ :=
    exists_rank_le_length h htrace hstart hpath hv List.getLast?_concat
  have hdepth : trace.countP Clause.isDecision ≤ atlas.depth :=
    (isGreatest_depth h).2 (Or.inr ⟨trace, htrace, rfl⟩)
  rw [List.countP_eq_length_filter] at hdepth
  exact ⟨rank, hrank, hle.trans (hpath.length_le.trans hdepth)⟩

/-! ## Runs that began alike -/

omit h in
/-- If all runs that observed anything began alike, the first of them did. -/
theorem findSome?_head?_of_single_entry {first : Clause}
    (hentry : ∀ trace ∈ runs events, trace ≠ [] → trace.head? = some first)
    {trace : Trace} (htrace : trace ∈ runs events) (hne : trace ≠ []) :
    (runs events).findSome? List.head? = some first := by
  cases hfind : (runs events).findSome? List.head? with
  | none =>
      have hnone := List.findSome?_eq_none_iff.1 hfind trace htrace
      rw [hentry trace htrace hne] at hnone
      cases hnone
  | some clause =>
      obtain ⟨other, hother, hclause⟩ := opens_of_findSome? hfind
      have hothers : other ≠ [] := by
        rintro rfl
        cases hclause
      rw [← hclause, hentry other hother hothers]

/-- If all runs that observed anything began alike, they began at the origin. -/
theorem head?_eq_of_single_entry {first : Clause}
    (hentry : ∀ trace ∈ runs events, trace ≠ [] → trace.head? = some first)
    {trace : Trace} (htrace : trace ∈ runs events) (hne : trace ≠ []) :
    trace.head? = atlas.origin?.bind atlas.clause? := by
  have hfirst := findSome?_head?_of_single_entry hentry htrace hne
  have hv := clause?_position h (opens_of_findSome? hfirst).observes
  rw [hentry trace htrace hne, origin?_replay h, hfirst, Option.bind_some,
    find?_eq_some_iff.2 hv, Option.bind_some, hv]

theorem seenFromOrigin_of_single_entry {first : Clause}
    (hentry : ∀ trace ∈ runs events, trace ≠ [] → trace.head? = some first)
    {v : Nat} {clause : Clause} (hv : atlas.clause? v = some clause) :
    atlas.SeenFromOrigin events clause := by
  obtain ⟨trace, htrace, hmem⟩ := (mem_clauses_iff h).1 (clause?_eq_some_iff.1 hv).1
  exact ⟨trace, htrace,
    head?_eq_of_single_entry h hentry htrace (List.ne_nil_of_mem hmem), hmem⟩

/-- **A search of runs that began alike is complete.**  The origin dominates every
vertex.  Every decision has a rank, which is at least one and neither above the length
of a path that was recorded there nor above the depth.  The search that takes the
layers up to the depth visits each open decision once, and no closed one. -/
theorem search_of_single_entry {first : Clause}
    (hentry : ∀ trace ∈ runs events, trace ≠ [] → trace.head? = some first) :
    (∀ v < atlas.size,
      ∃ origin, atlas.origin? = some origin ∧ atlas.dominates origin v = true) ∧
    (∀ v, atlas.isDecision v = true → ∃ rank, (v, rank) ∈ atlas.ranking ∧ 1 ≤ rank ∧
      (∀ path ∈ (atlas.recordsAt v).paths, rank ≤ path.length) ∧ rank ≤ atlas.depth) ∧
    (∀ v, v ∈ atlas.searchOrder ↔ atlas.isDecision v = true ∧ atlas.isClosed v = false) ∧
    atlas.searchOrder.Nodup := by
  have hrank : ∀ v, atlas.isDecision v = true →
      ∃ rank, (v, rank) ∈ atlas.ranking ∧ rank ≤ atlas.depth := by
    intro v hkind
    obtain ⟨clause, hv, hclause⟩ := exists_clause?_of_isDecision hkind
    exact exists_rank_le_depth h hv hclause (seenFromOrigin_of_single_entry h hentry hv)
  refine ⟨?_, ?_, ?_, nodup_searchOrder atlas⟩
  · intro v hlt
    obtain ⟨clause, hv⟩ := exists_clause? hlt
    exact exists_origin_dominates
      (within_of_seenFromOrigin h hv (seenFromOrigin_of_single_entry h hentry hv))
  · intro v hkind
    obtain ⟨rank, hmem, hdepth⟩ := hrank v hkind
    refine ⟨rank, hmem, one_le_rank hmem, ?_, hdepth⟩
    intro path hpath
    obtain ⟨clause, hv, hlast, trace, htrace, hfollowed⟩ := (mem_paths_recordsAt h).1 hpath
    have hne : trace ≠ [] := by
      rintro rfl
      rw [List.prefix_nil.1 hfollowed] at hlast
      cases hlast
    obtain ⟨other, hother, hle⟩ := exists_rank_le_length h htrace
      (head?_eq_of_single_entry h hentry htrace hne) hfollowed hv hlast
    rwa [eq_of_mem_ranking hmem hother]
  · intro v
    rw [mem_searchOrder_iff]
    constructor
    · rintro ⟨hopen, rank, -, hmem⟩
      exact ⟨(mem_ranking_iff.1 hmem).1, hopen⟩
    · rintro ⟨hkind, hopen⟩
      obtain ⟨rank, hmem, hdepth⟩ := hrank v hkind
      exact ⟨hopen, rank, hdepth, hmem⟩

end

/-- The runs of the sample program begin alike.  They leave two decisions open: where
the difference was looked up, and where the zero was found. -/
theorem search_of_single_entry_rejoined :
    ∃ atlas, (empty {}).replay rejoinedRuns = .ok atlas ∧
      (∀ trace ∈ runs rejoinedRuns, trace ≠ [] →
        trace.head? = some (.effect 0 "x, y = input()")) ∧
      atlas.dominates 0 4 = true ∧ atlas.searchOrder = [3, 6] ∧
      ∃ rank, (6, rank) ∈ atlas.ranking ∧ 1 ≤ rank ∧ rank ≤ 2 := by
  have hvalue : ((empty {}).replay rejoinedRuns).map (fun atlas =>
      (atlas.size, atlas.origin?, atlas.isDecision 6, atlas.depth, atlas.searchOrder)) =
        .ok (8, some 0, true, 2, [3, 6]) := by
    rfl
  obtain ⟨atlas, h, hvalue⟩ := exists_of_map_eq_ok hvalue
  simp only [Prod.mk.injEq] at hvalue
  obtain ⟨hsize, horigin, hkind, hdepth, horder⟩ := hvalue
  have hentry : ∀ trace ∈ runs rejoinedRuns, trace ≠ [] →
      trace.head? = some (.effect 0 "x, y = input()") := by
    decide
  obtain ⟨hdominates, hranked, -, -⟩ := search_of_single_entry h hentry
  obtain ⟨origin, heq, hdominator⟩ := hdominates 4 (by rw [hsize]; decide)
  obtain ⟨rank, hrank, hpos, -, hle⟩ := hranked 6 hkind
  rw [horigin] at heq
  cases heq
  exact ⟨atlas, h, hentry, hdominator, horder, rank, hrank, hpos, hdepth ▸ hle⟩

/-! ## Runs that began elsewhere -/

/-- The ranked decisions that no run from the origin observed, with their ranks. -/
def strays (atlas : Atlas) (events : List Event) : List (Nat × Nat) :=
  atlas.ranking.filter fun entry => (atlas.clause? entry.1).all fun clause =>
    !decide (atlas.SeenFromOrigin events clause)

theorem mem_strays_iff {atlas : Atlas} {events : List Event} {v rank : Nat} :
    (v, rank) ∈ atlas.strays events ↔ (v, rank) ∈ atlas.ranking ∧
      ∀ clause, atlas.clause? v = some clause → ¬atlas.SeenFromOrigin events clause := by
  rw [strays, List.mem_filter, Option.all_eq_true]
  simp

theorem nodup_strays (atlas : Atlas) (events : List Event) :
    (atlas.strays events).Nodup := by
  have hlisted := pairwise_map_fst_ranking atlas
  rw [List.pairwise_map] at hlisted
  refine List.Nodup.filter _ (hlisted.imp ?_)
  rintro entry _ hlt rfl
  exact Nat.lt_irrefl _ hlt

section

variable {settings : Settings} {events : List Event} {atlas : Atlas}
variable (h : (empty settings).replay events = .ok atlas)

include h

/-- Ranks above the depth are those of strays. -/
theorem mem_strays_of_depth_lt {v rank : Nat} (hrank : (v, rank) ∈ atlas.ranking)
    (hlt : atlas.depth < rank) : (v, rank) ∈ atlas.strays events := by
  refine mem_strays_iff.2 ⟨hrank, ?_⟩
  intro clause hv hseen
  have hkind := (mem_ranking_iff.1 hrank).1
  rw [isDecision_of_clause? hv] at hkind
  obtain ⟨other, hother, hle⟩ := exists_rank_le_depth h hv hkind hseen
  have heq := eq_of_mem_ranking hrank hother
  omega

/-- Each rank above the depth and up to one that occurs is that of a stray. -/
theorem rank_le_depth_add {v rank : Nat} (hrank : (v, rank) ∈ atlas.ranking) :
    rank ≤ atlas.depth + (atlas.strays events).length := by
  have hranks : List.range' (atlas.depth + 1) (rank - atlas.depth) ⊆
      (atlas.strays events).map Prod.snd := by
    intro d hd
    obtain ⟨hlow, hhigh⟩ := List.mem_range'_1.1 hd
    have hpos : 1 ≤ d := by omega
    have hle : d ≤ rank := by omega
    obtain ⟨u, hu⟩ := exists_mem_ranking_of_le hrank hpos hle
    exact List.mem_map.2 ⟨(u, d), mem_strays_of_depth_lt h hu hlow, rfl⟩
  have hle := List.Nodup.length_le_of_subset List.nodup_range' hranks
  rw [List.length_range', List.length_map] at hle
  omega

/-- **How far ranks exceed the depth.**  Runs may begin anywhere.  A rank is at least
one, and it exceeds the depth by no more than the number of decisions with a rank that
no run from the origin observed.  A search that takes the layers up to the depth comes
to every decision that a run from the origin did observe. -/
theorem rank_le_depth_add_strays :
    (∀ v rank, (v, rank) ∈ atlas.ranking →
      1 ≤ rank ∧ rank ≤ atlas.depth + (atlas.strays events).length) ∧
    (atlas.strays events).Nodup ∧
    (∀ v rank, (v, rank) ∈ atlas.strays events ↔ (v, rank) ∈ atlas.ranking ∧
      ∀ clause, atlas.clause? v = some clause → ¬atlas.SeenFromOrigin events clause) ∧
    ∀ v clause, atlas.clause? v = some clause → clause.isDecision = true →
      atlas.SeenFromOrigin events clause → ∃ rank ∈ atlas.rounds, v ∈ atlas.layer rank := by
  refine ⟨?_, nodup_strays atlas events, fun _ _ => mem_strays_iff, ?_⟩
  · intro v rank hrank
    exact ⟨one_le_rank hrank, rank_le_depth_add h hrank⟩
  · intro v clause hv hkind hseen
    obtain ⟨rank, hrank, hle⟩ := exists_rank_le_depth h hv hkind hseen
    exact ⟨rank, mem_rounds.2 ⟨one_le_rank hrank, hle⟩, mem_layer.2 hrank⟩

end

/-- Two runs, of which the second begins in the middle of things. -/
def relayRuns : List Event :=
  [.run [ready, fork true], .run [fork true, arrival]]

/-- The arrival has rank three, and no run has three decisions: the bound is met. -/
theorem rank_le_depth_add_strays_relay :
    ∃ atlas, (empty {}).replay relayRuns = .ok atlas ∧ atlas.depth = 2 ∧
      (2, 3) ∈ atlas.ranking ∧ 3 ≤ atlas.depth + (atlas.strays relayRuns).length ∧
      atlas.strays relayRuns = [(2, 3)] ∧ ∃ rank ∈ atlas.rounds, 1 ∈ atlas.layer rank := by
  have hvalue : ((empty {}).replay relayRuns).map (fun atlas =>
      (atlas.depth, atlas.ranking, atlas.strays relayRuns, atlas.clause? 1,
        decide (atlas.SeenFromOrigin relayRuns (fork true)))) =
        .ok (2, [(0, 1), (1, 2), (2, 3)], [(2, 3)], some (fork true), true) := by
    rfl
  obtain ⟨atlas, h, hvalue⟩ := exists_of_map_eq_ok hvalue
  simp only [Prod.mk.injEq] at hvalue
  obtain ⟨hdepth, hranking, hstrays, hfork, hseen⟩ := hvalue
  have hrank : (2, 3) ∈ atlas.ranking := by
    rw [hranking]
    decide
  obtain ⟨hbounds, -, -, hreached⟩ := rank_le_depth_add_strays h
  exact ⟨atlas, h, hdepth, hrank, (hbounds 2 3 hrank).2, hstrays,
    hreached 1 (fork true) hfork rfl (of_decide_eq_true hseen)⟩

/-- The depth alone is no bound: the route to the arrival is one that no single run
took. -/
theorem not_forall_rank_le_depth :
    ¬∀ settings events atlas v rank, (empty settings).replay events = .ok atlas →
      (v, rank) ∈ atlas.ranking → 1 ≤ rank ∧ rank ≤ atlas.depth := by
  intro hall
  have hvalue : ((empty {}).replay relayRuns).map (fun atlas =>
      (atlas.depth, atlas.ranking)) = .ok (2, [(0, 1), (1, 2), (2, 3)]) := by
    rfl
  obtain ⟨atlas, h, hvalue⟩ := exists_of_map_eq_ok hvalue
  obtain ⟨hdepth, hranking⟩ := Prod.mk.inj hvalue
  have hrank : (2, 3) ∈ atlas.ranking := by
    rw [hranking]
    decide
  have hle := (hall {} relayRuns atlas 2 3 h hrank).2
  rw [hdepth] at hle
  omega

end Atlas

end Concolic
