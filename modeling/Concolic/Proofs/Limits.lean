import Concolic.Proofs.Pruning

/-!
# Queries and their limit

A query lists back from its target: it names a vertex when it first meets it on the
way back, which is where the path visited it last.  All that it ever names is the
lineage of the target on the path, and the limit only says how much of the lineage a
query keeps.  So a higher limit appends.  It stops to append early, because the last
place of a path is the target, which is never named: from the depth of the atlas less
one on, a limit leaves nothing out.

## Main results

* `Roster.pairwise_ofList_reverse`: members that arrive backwards are in the order of
  their last places.
* `Atlas.lineage_orderly`: what a lineage names, and in what order.
* `Atlas.ancestors_eq_lineage`: a limit that leaves nothing out.
* `Atlas.queries_of_limits`: the queries about one target under all limits.
-/

namespace Concolic

/-! ## Last places -/

/-- `x` stands at place `i` of a list, and at no later place. -/
def LastAt {α : Type} (xs : List α) (i : Nat) (x : α) : Prop :=
  xs[i]? = some x ∧ ∀ j, i < j → xs[j]? ≠ some x

section

variable {α : Type} {a x : α} {xs : List α}

theorem LastAt.cons {i : Nat} (h : LastAt xs i x) (a : α) : LastAt (a :: xs) (i + 1) x := by
  refine ⟨h.1, ?_⟩
  intro j hj
  cases j with
  | zero => omega
  | succ j => exact h.2 j (Nat.lt_of_succ_lt_succ hj)

theorem lastAt_zero (ha : a ∉ xs) : LastAt (a :: xs) 0 a := by
  refine ⟨rfl, ?_⟩
  intro j hj hmem
  cases j with
  | zero => omega
  | succ j => exact ha (List.mem_of_getElem? hmem)

theorem exists_lastAt (hx : x ∈ xs) : ∃ i, LastAt xs i x := by
  induction xs with
  | nil => cases hx
  | cons a xs ih =>
      by_cases hrest : x ∈ xs
      · obtain ⟨i, hi⟩ := ih hrest
        exact ⟨i + 1, hi.cons a⟩
      · have hhead : x = a := (List.mem_cons.1 hx).resolve_right hrest
        rw [← hhead]
        exact ⟨0, lastAt_zero hrest⟩

/-- **Members that arrive backwards** are in the order of their last places, the last
of all first. -/
theorem Roster.pairwise_ofList_reverse [DecidableEq α] (xs : List α) :
    (Roster.ofList xs.reverse).toList.Pairwise fun recent older =>
      ∃ i j, LastAt xs i recent ∧ LastAt xs j older ∧ j < i := by
  induction xs with
  | nil => exact List.Pairwise.nil
  | cons a xs ih =>
      have hrest : (Roster.ofList xs.reverse).toList.Pairwise fun recent older =>
          ∃ i j, LastAt (a :: xs) i recent ∧ LastAt (a :: xs) j older ∧ j < i := by
        refine ih.imp ?_
        intro recent older hplaces
        rcases hplaces with ⟨i, j, hi, hj, hlt⟩
        exact ⟨i + 1, j + 1, hi.cons a, hj.cons a, Nat.succ_lt_succ hlt⟩
      rw [List.reverse_cons, ofList_append, addAll_cons, addAll_nil]
      by_cases ha : a ∈ xs
      · -- `a` comes again later, so that it was met before
        rw [add_of_mem (mem_ofList.2 (List.mem_reverse.2 ha))]
        exact hrest
      · have hnew : a ∉ Roster.ofList xs.reverse := by
          rw [mem_ofList, List.mem_reverse]
          exact ha
        rw [toList_add_of_not_mem hnew, List.pairwise_append]
        refine ⟨hrest, List.pairwise_singleton _ _, ?_⟩
        intro recent hrecent older holder
        rw [mem_toList, mem_ofList, List.mem_reverse] at hrecent
        rw [List.mem_singleton.1 holder]
        obtain ⟨i, hi⟩ := exists_lastAt hrecent
        exact ⟨i + 1, 0, hi.cons a, lastAt_zero ha, Nat.succ_pos i⟩

end

namespace Query

/-- A query that keeps at most the first `limit` of its ancestors. -/
def shorten (limit : Nat) (query : Query) : Query :=
  { query with ancestors := query.ancestors.take limit }

end Query

namespace Atlas

/-- Place `i` of a path is the last at which it visits the vertex `v`. -/
def LastVisit (atlas : Atlas) (path : Path) (i v : Nat) : Prop :=
  ∃ clause, atlas.clause? v = some clause ∧ LastAt path i clause

/-- What a list of ancestors of `target` on `path` is like: it names nothing twice,
neither the target nor what dominates it, and what the path visited last comes first. -/
structure Orderly (atlas : Atlas) (target : Nat) (path : Path) (ancestors : List Nat) :
    Prop where
  nodup : ancestors.Nodup
  ne_target : ∀ v ∈ ancestors, v ≠ target
  not_dominates : ∀ v ∈ ancestors, atlas.dominates v target = false
  visited : ∀ v ∈ ancestors, ∃ i, atlas.LastVisit path i v
  recent_first : ancestors.Pairwise fun recent older =>
    ∃ i j, atlas.LastVisit path i recent ∧ atlas.LastVisit path j older ∧ j < i

/-- The vertices of all earlier decisions on `path` that matter to `target`, the most
recent first. -/
def lineage (atlas : Atlas) (target : Nat) (path : Path) : List Nat :=
  (Roster.ofList (atlas.itinerary path).reverse).toList.filter fun v =>
    v != target && !atlas.dominates v target

section

variable {settings : Settings} {events : List Event} {atlas : Atlas} {target limit : Nat}
variable {path : Path}

theorem Orderly.sublist {part all : List Nat} (h : atlas.Orderly target path all)
    (hpart : part.Sublist all) : atlas.Orderly target path part where
  nodup := h.nodup.sublist hpart
  ne_target v hv := h.ne_target v (hpart.mem hv)
  not_dominates v hv := h.not_dominates v (hpart.mem hv)
  visited v hv := h.visited v (hpart.mem hv)
  recent_first := h.recent_first.sublist hpart

/-! ## The lineage -/

theorem lastVisit_of_lastAt_itinerary (h : (empty settings).replay events = .ok atlas)
    (hobserved : ∀ clause ∈ path, Observes events clause) {i v : Nat}
    (hv : LastAt (atlas.itinerary path) i v) : atlas.LastVisit path i v := by
  have hplace : ∀ j, (atlas.itinerary path)[j]? = path[j]?.map atlas.clauses.position :=
    fun _ => List.getElem?_map
  have hlast := hv.1
  rw [hplace, Option.map_eq_some_iff] at hlast
  obtain ⟨clause, hclause, hposition⟩ := hlast
  have hfound : atlas.clause? v = some clause := by
    rw [← hposition]
    exact clause?_position h (hobserved clause (List.mem_of_getElem? hclause))
  refine ⟨clause, hfound, hclause, ?_⟩
  intro j hj hagain
  apply hv.2 j hj
  rw [hplace, hagain, ← hposition]
  rfl

/-- **What a lineage names**, and in what order. -/
theorem lineage_orderly (h : (empty settings).replay events = .ok atlas)
    (hobserved : ∀ clause ∈ path, Observes events clause) :
    atlas.Orderly target path (atlas.lineage target path) := by
  have hpart : (atlas.lineage target path).Sublist
      (Roster.ofList (atlas.itinerary path).reverse).toList := List.filter_sublist
  have hkept : ∀ v ∈ atlas.lineage target path,
      v ≠ target ∧ atlas.dominates v target = false := by
    intro v hv
    have hmatters := (List.mem_filter.1 hv).2
    rw [Bool.and_eq_true, bne_iff_ne, Bool.not_eq_true'] at hmatters
    exact hmatters
  have hlift : ∀ i v, LastAt (atlas.itinerary path) i v → atlas.LastVisit path i v :=
    fun _ _ => lastVisit_of_lastAt_itinerary h hobserved
  refine
    { nodup := (Roster.nodup _).sublist hpart
      ne_target := fun v hv => (hkept v hv).1
      not_dominates := fun v hv => (hkept v hv).2
      visited := ?_
      recent_first := ?_ }
  · intro v hv
    have hmem := hpart.mem hv
    rw [Roster.mem_toList, Roster.mem_ofList, List.mem_reverse] at hmem
    obtain ⟨i, hi⟩ := exists_lastAt hmem
    exact ⟨i, hlift i v hi⟩
  · refine ((Roster.pairwise_ofList_reverse _).sublist hpart).imp ?_
    intro recent older hplaces
    rcases hplaces with ⟨i, j, hi, hj, hlt⟩
    exact ⟨i, j, hlift i recent hi, hlift j older hj, hlt⟩

/-- A query keeps the beginning of the lineage. -/
theorem ancestors_eq_take (atlas : Atlas) (target : Nat) (path : Path) (limit : Nat) :
    atlas.ancestors target path limit = (atlas.lineage target path).take limit := by
  rw [lineage, Roster.filter_toList_ofList]
  rfl

/-- **A limit that leaves nothing out**: the last place of the path is the target,
which needs no room. -/
theorem ancestors_eq_lineage {clause : Clause} (hv : atlas.clause? target = some clause)
    (hlast : path.getLast? = some clause) (hlimit : path.length ≤ limit + 1) :
    atlas.ancestors target path limit = atlas.lineage target path := by
  obtain ⟨front, rfl⟩ := List.getLast?_eq_some_iff.1 hlast
  have hfront : front.length ≤ limit := by
    rw [List.length_append, List.length_singleton] at hlimit
    omega
  rw [ancestors_eq_take, lineage, Roster.filter_toList_ofList]
  apply Roster.take_toList_ofList
  rw [reverse_itinerary_concat hv, List.filter_cons_of_neg (by simp)]
  refine (List.length_filter_le _ _).trans ?_
  rw [List.length_reverse, itinerary, List.length_map]
  exact hfront

/-! ## Queries under all limits -/

/-- A lower limit shortens the queries, and does nothing else. -/
theorem queries_eq_map_shorten (target : Nat) {few many : Nat} (hle : few ≤ many) :
    atlas.queries target few = (atlas.queries target many).map (Query.shorten few) := by
  rw [queries, queries, List.map_map]
  refine List.map_congr_left fun entry _ => ?_
  have hancestors : atlas.ancestors target entry.1 few =
      (atlas.ancestors target entry.1 many).take few := by
    rw [ancestors_eq_take, ancestors_eq_take, List.take_take, Nat.min_eq_left hle]
  rw [hancestors]
  rfl

/-- From the depth of the atlas less one on, no limit leaves anything out. -/
theorem queries_eq_of_depth_le (h : (empty settings).replay events = .ok atlas) {few many : Nat}
    (hdepth : atlas.depth ≤ few + 1) (hle : few ≤ many) :
    atlas.queries target few = atlas.queries target many := by
  have hsame : ∀ query ∈ atlas.queries target many, query.shorten few = id query := by
    intro query hquery
    obtain ⟨clause, hv, hlast, -, -, hlength⟩ := followed_of_mem_queries h hquery
    have hfew : query.path.length ≤ few + 1 := hlength.trans hdepth
    have hmany : query.path.length ≤ many + 1 := hfew.trans (Nat.succ_le_succ hle)
    have hancestors : query.ancestors.take few = query.ancestors := by
      rw [(mem_queries_iff.1 hquery).2.1, ancestors_eq_lineage hv hlast hmany,
        ← ancestors_eq_take, ancestors_eq_lineage hv hlast hfew]
    rw [Query.shorten, hancestors]
    rfl
  rw [queries_eq_map_shorten target hle, List.map_congr_left hsame, List.map_id]

theorem orderly_of_mem_queries (h : (empty settings).replay events = .ok atlas)
    {query : Query} (hquery : query ∈ atlas.queries target limit) :
    atlas.Orderly target query.path query.ancestors := by
  obtain ⟨-, -, -, htrace, hprefix, -⟩ := followed_of_mem_queries h hquery
  have hfollowed : Followed events query.path := ⟨query.trace, htrace, hprefix⟩
  have hlineage : atlas.Orderly target query.path (atlas.lineage target query.path) :=
    lineage_orderly h fun clause hclause => (hfollowed.decision hclause).2
  rw [(mem_queries_iff.1 hquery).2.1, ancestors_eq_take]
  exact hlineage.sublist (List.take_sublist _ _)

/-- **A higher limit appends, up to the depth.**  Under every limit there is one query
about a target for each path that was recorded there, in the order in which the paths
were first followed, and its ancestors are listed back from the target.  Under a lower
limit the queries are the same but for their ancestors, of which they keep the first.
From the depth of the atlas less one on, all limits give the same queries. -/
theorem queries_of_limits (h : (empty settings).replay events = .ok atlas) (target : Nat) :
    (∀ limit,
      (∀ query ∈ atlas.queries target limit, query.target = target ∧
        atlas.Orderly target query.path query.ancestors) ∧
      (atlas.queries target limit).map (fun query => (query.path, query.trace)) =
        (atlas.recordsAt target).entries ∧
      ∀ clause, atlas.clause? target = some clause →
        (atlas.queries target limit).map Query.path =
          (Roster.ofList (passages events clause)).toList) ∧
    ∀ few many, few ≤ many →
      atlas.queries target few = (atlas.queries target many).map (Query.shorten few) ∧
      (atlas.depth ≤ few + 1 → atlas.queries target few = atlas.queries target many) := by
  refine ⟨?_, ?_⟩
  · intro limit
    refine ⟨?_, ?_, ?_⟩
    · intro query hquery
      exact ⟨(mem_queries_iff.1 hquery).1, orderly_of_mem_queries h hquery⟩
    · rw [queries, List.map_map]
      exact List.map_id' _
    · intro clause hclause
      rw [map_path_queries, paths_recordsAt h hclause]
  · intro few many hle
    exact ⟨queries_eq_map_shorten target hle, fun hdepth => queries_eq_of_depth_le h hdepth hle⟩

end

/-- A run that arrives, goes back under its first condition, and arrives again. -/
def roundTrip : Trace :=
  [.effect 0 "fast = input()", ready, fork true, arrival, ready, arrival]

/-- One run that arrives at once, and then one that arrives twice. -/
def detours : List Event :=
  [.run [.effect 0 "fast = input()", arrival], .run roundTrip]

/-- On its way back the first arrival meets the fork before the condition, and the second
arrival the condition before the fork. -/
theorem queries_of_limits_detours :
    ∃ atlas, (empty {}).replay detours = .ok atlas ∧ atlas.depth = 5 ∧
      (atlas.queries 1 4).map Query.ancestors = [[], [3, 2], [2, 3]] ∧
      (atlas.queries 1 1).map Query.ancestors = [[], [3], [2]] ∧
      atlas.queries 1 4 = atlas.queries 1 9 ∧
      (atlas.queries 1 4).map Query.path =
        (Roster.ofList (passages detours arrival)).toList ∧
      atlas.Orderly 1 [ready, fork true, arrival, ready, arrival] [2, 3] := by
  have hvalue : ((empty {}).replay detours).map (fun atlas =>
      (atlas.depth, atlas.clause? 1, (atlas.queries 1 4).map Query.ancestors,
        (atlas.queries 1 4)[2]?.map Query.path)) =
        .ok (5, some arrival, [[], [3, 2], [2, 3]],
          some [ready, fork true, arrival, ready, arrival]) := by
    cbv
  obtain ⟨atlas, h, hvalue⟩ := exists_of_map_eq_ok hvalue
  simp only [Prod.mk.injEq] at hvalue
  rcases hvalue with ⟨hdepth, hclause, hancestors, hlast⟩
  obtain ⟨hqueries, hlimits⟩ := queries_of_limits h 1
  have hshort : (atlas.queries 1 1).map Query.ancestors = [[], [3], [2]] := by
    have hfirst : Query.ancestors ∘ Query.shorten 1 = List.take 1 ∘ Query.ancestors := rfl
    rw [(hlimits 1 4 (by decide)).1, List.map_map, hfirst, ← List.map_map, hancestors]
    rfl
  have hsame : atlas.queries 1 4 = atlas.queries 1 9 :=
    (hlimits 4 9 (by decide)).2 (Nat.le_of_eq hdepth)
  have horderly : atlas.Orderly 1 [ready, fork true, arrival, ready, arrival] [2, 3] := by
    obtain ⟨query, hquery, hpath⟩ := Option.map_eq_some_iff.1 hlast
    have hlisted : query.ancestors = [2, 3] := by
      have hthird : ((atlas.queries 1 4).map Query.ancestors)[2]? = some [2, 3] := by
        rw [hancestors]
        rfl
      rw [List.getElem?_map, hquery] at hthird
      exact Option.some.inj hthird
    rw [← hpath, ← hlisted]
    exact ((hqueries 4).1 query (List.mem_of_getElem? hquery)).2
  exact ⟨atlas, h, hdepth, hancestors, hshort, hsame, (hqueries 4).2.2 arrival hclause,
    horderly⟩

end Atlas

end Concolic
