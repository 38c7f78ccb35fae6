import Concolic.Proofs.Layers
import Concolic.Proofs.Provenance

/-!
# What later events leave in place

An atlas only grows.  Every route that it has now it still has later, with the
same vertices in the same order, and more routes can only make it harder to
dominate.  So a vertex within reach stays there, and among its dominators none
can be new.  For the queries about it this means that none loses a condition.
The paths to a target stay where they are, new ones come after them, and a query
keeps what does not dominate.  What dominated before and has been evaded since
joins the conditions, in its place on the path.  A decision that has a rank keeps
one, which a new route can only lower.

## Main results

* `Atlas.Route.append`: a route stays a route.
* `Atlas.dominates_append_iff`: which dominators are left later.
* `Atlas.queries_append`: what becomes of a query.
* `Atlas.ranking_append`: what becomes of a rank.
-/

namespace Concolic

namespace Atlas

section

variable {settings : Settings} {events more : List Event} {atlas later : Atlas}
variable (h : (empty settings).replay events = .ok atlas)
variable (hlater : (empty settings).replay (events ++ more) = .ok later)

include h hlater

/-! ## Routes -/

theorem origin?_append {v : Nat} (hv : atlas.origin? = some v) : later.origin? = some v := by
  obtain ⟨rfl, hpos⟩ := origin?_eq_some_iff.1 hv
  obtain ⟨clause, hclause⟩ := exists_clause? hpos
  exact origin?_eq_some_iff.2 ⟨rfl, lt_size_of_clause? (clause?_append h hlater hclause)⟩

theorem mem_successors_append {u v : Nat} (hv : v ∈ atlas.successors u) :
    v ∈ later.successors u := by
  obtain ⟨first, second, hfollows, hu, hv⟩ := (mem_successors_iff h).1 hv
  exact (mem_successors_iff hlater).2 ⟨first, second, hfollows.append more,
    clause?_append h hlater hu, clause?_append h hlater hv⟩

/-- **A route stays a route.** -/
theorem Route.append {walk : List Nat} (hroute : atlas.Route walk) : later.Route walk := by
  induction hroute with
  | origin hv => exact .origin (origin?_append h hlater hv)
  | step _ hv ih => exact ih.step (mem_successors_append h hlater hv)

theorem Within.append {v : Nat} (hwithin : atlas.Within v) : later.Within v := by
  obtain ⟨back, hroute⟩ := hwithin
  exact ⟨back, hroute.append h hlater⟩

/-! ## Dominance -/

/-- What dominates a vertex later dominated it as soon as it was within reach. -/
theorem dominates_of_append {a b : Nat} (hwithin : atlas.Within b)
    (hdominates : later.dominates a b = true) : atlas.dominates a b = true := by
  refine dominates_eq_true_iff.2 ⟨hwithin, ?_⟩
  intro back hroute
  exact (dominates_eq_true_iff.1 hdominates).2 back (hroute.append h hlater)

/-- **Dominance is lost and never gained.**  Whatever happens to an atlas later, a
vertex that is within reach now has no dominators then but those that it has now.
It keeps exactly the ones that no new route evades. -/
theorem dominates_append_iff {b : Nat} (hb : atlas.dominates b b = true) (a : Nat) :
    (later.dominates a b = true → atlas.dominates a b = true) ∧
    (atlas.dominates a b = true → (later.dominates a b = true ↔
      ∀ back, later.Route (b :: back) → ¬atlas.Route (b :: back) → a ∈ b :: back)) := by
  have hwithin : atlas.Within b := (dominates_eq_true_iff.1 hb).1
  refine ⟨dominates_of_append h hlater hwithin, ?_⟩
  intro hdominates
  rw [dominates_eq_true_iff]
  constructor
  · intro hall back hroute _
    exact hall.2 back hroute
  · intro hnew
    refine ⟨hwithin.append h hlater, ?_⟩
    intro back hroute
    by_cases hold : atlas.Route (b :: back)
    · exact (dominates_eq_true_iff.1 hdominates).2 back hold
    · exact hnew back hroute hold

end

/-- A run that goes to the meeting place at once. -/
def shortcut : Trace :=
  [.effect 0 "fast = input()", .effect 3 "meet", arrival]

/-- The shortcut evades the condition under which both ways start; the input, where
every route begins, dominates as before. -/
theorem dominates_append_iff_shortcut :
    ∃ atlas later, (empty {}).replay journeys = .ok atlas ∧
      (empty {}).replay (journeys ++ [.run shortcut]) = .ok later ∧
      later.dominates 0 4 = true ∧ atlas.dominates 0 4 = true ∧
      ∃ back, later.Route (4 :: back) ∧ ¬atlas.Route (4 :: back) ∧ 1 ∉ 4 :: back := by
  have hvalue : ((empty {}).replay journeys).map (fun atlas =>
      (atlas.dominates 4 4, atlas.dominates 1 4)) = .ok (true, true) := by
    cbv
  have hlaterValue : ((empty {}).replay (journeys ++ [.run shortcut])).map (fun later =>
      (later.dominates 0 4, later.dominates 1 4)) = .ok (true, false) := by
    cbv
  obtain ⟨atlas, h, hvalue⟩ := exists_of_map_eq_ok hvalue
  obtain ⟨later, hlater, hlaterValue⟩ := exists_of_map_eq_ok hlaterValue
  obtain ⟨hself, hready⟩ := Prod.mk.inj hvalue
  obtain ⟨hinput, hevaded⟩ := Prod.mk.inj hlaterValue
  refine ⟨atlas, later, h, hlater, hinput,
    (dominates_append_iff h hlater hself 0).1 hinput, ?_⟩
  by_contra hnone
  have hkept := ((dominates_append_iff h hlater hself 1).2 hready).2
  rw [hkept ?_] at hevaded
  · cases hevaded
  · intro back hroute hnew
    by_contra hevades
    exact hnone ⟨back, hroute, hnew, hevades⟩

/-! ## Queries -/

section

variable {settings : Settings} {events more : List Event} {atlas later : Atlas}
variable (h : (empty settings).replay events = .ok atlas)
variable (hlater : (empty settings).replay (events ++ more) = .ok later)

include h hlater

theorem itinerary_append {clauses : List Clause}
    (hobserved : ∀ clause ∈ clauses, Observes events clause) :
    later.itinerary clauses = atlas.itinerary clauses := by
  refine List.map_congr_left fun clause hclause => ?_
  have hv := clause?_append h hlater (clause?_position h (hobserved clause hclause))
  exact (clause?_eq_some_iff.1 hv).2

/-- New paths come after the old ones. -/
theorem paths_recordsAt_append (v : Nat) :
    (atlas.recordsAt v).paths <+: (later.recordsAt v).paths := by
  cases hv : atlas.clause? v with
  | none =>
      rw [recordsAt, hv]
      exact List.nil_prefix
  | some clause =>
      have hpassages : passages (events ++ more) clause =
          passages events clause ++ passages more clause := by
        rw [passages, runs_append, List.flatMap_append, passages, passages]
      rw [paths_recordsAt h hv, paths_recordsAt hlater (clause?_append h hlater hv),
        hpassages, Roster.ofList_append]
      exact Roster.prefix_addAll _ _

/-- On the same path nothing that mattered ceases to matter. -/
theorem ancestors_append {target limit : Nat} {path : Path} (hwithin : atlas.Within target)
    (hpath : Followed events path) (hlimit : path.length ≤ limit) :
    (atlas.ancestors target path limit).Sublist (later.ancestors target path limit) := by
  rw [ancestors_eq_filter hlimit, ancestors_eq_filter hlimit,
    itinerary_append h hlater fun clause hclause => (hpath.decision hclause).2]
  refine List.monotone_filter_right _ ?_
  intro v hkept
  rw [Bool.and_eq_true, Bool.not_eq_true'] at hkept ⊢
  refine ⟨hkept.1, ?_⟩
  rw [Bool.eq_false_iff]
  intro hdominates
  rw [dominates_of_append h hlater hwithin hdominates] at hkept
  cases hkept.2

/-- What came to matter on a path had dominated the target. -/
theorem dominates_of_new_ancestor {target limit : Nat} {path : Path}
    (hpath : Followed events path) (hlimit : path.length ≤ limit) {v : Nat}
    (hv : v ∈ later.ancestors target path limit)
    (hnew : v ∉ atlas.ancestors target path limit) : atlas.dominates v target = true := by
  rw [mem_ancestors_iff hlimit, itinerary_append h hlater
    fun clause hclause => (hpath.decision hclause).2] at hv
  rw [mem_ancestors_iff hlimit] at hnew
  rw [← Bool.not_eq_false]
  intro hfalse
  exact hnew ⟨hv.1, hv.2.1, hfalse⟩

/-- **No query loses a condition.**  Take a target within reach, whatever happens
to the atlas later, and queries that may keep as many ancestors as it is deep
then.  The query at each place is about the same path as before, and the
ancestors that it had come in the same order among those that it has then; the
others had dominated the target.  New queries come after the old ones only. -/
theorem queries_append {target limit : Nat} (hwithin : atlas.dominates target target = true)
    (hlimit : later.depth ≤ limit) {i : Nat} {query : Query}
    (hquery : (atlas.queries target limit)[i]? = some query) :
    ∃ renewed, (later.queries target limit)[i]? = some renewed ∧
      renewed.target = query.target ∧ renewed.path = query.path ∧
      query.ancestors.Sublist renewed.ancestors ∧
      ∀ v ∈ renewed.ancestors, v ∉ query.ancestors → atlas.dominates v target = true := by
  have hplace : (atlas.recordsAt target).paths[i]? = some query.path := by
    rw [← map_path_queries target limit, List.getElem?_map, hquery]
    rfl
  obtain ⟨hi, heq⟩ := List.getElem?_eq_some_iff.1 hplace
  have hkeeps : (later.recordsAt target).paths[i]? = some query.path :=
    heq ▸ List.prefix_iff_getElem?.1 (paths_recordsAt_append h hlater target) i hi
  rw [← map_path_queries target limit, List.getElem?_map, Option.map_eq_some_iff] at hkeeps
  obtain ⟨renewed, hrenewed, hpath⟩ := hkeeps
  have hold := List.mem_of_getElem? hquery
  have hnew := List.mem_of_getElem? hrenewed
  obtain ⟨-, -, -, htrace, hprefix, -⟩ := followed_of_mem_queries h hold
  have hfollowed : Followed events query.path := ⟨query.trace, htrace, hprefix⟩
  have hlength : query.path.length ≤ limit := by
    obtain ⟨-, -, -, -, -, hdepth⟩ := followed_of_mem_queries hlater hnew
    rw [hpath] at hdepth
    exact hdepth.trans hlimit
  obtain ⟨htarget, hancestors, -⟩ := mem_queries_iff.1 hold
  obtain ⟨htarget', hancestors', -⟩ := mem_queries_iff.1 hnew
  rw [hpath] at hancestors'
  refine ⟨renewed, hrenewed, htarget'.trans htarget.symm, hpath, ?_, ?_⟩
  · rw [hancestors, hancestors']
    exact ancestors_append h hlater (dominates_eq_true_iff.1 hwithin).1 hfollowed hlength
  · intro v hv hnot
    rw [hancestors'] at hv
    rw [hancestors] at hnot
    exact dominates_of_new_ancestor h hlater hfollowed hlength hv hnot

end

/-- The query about the arrival gains the condition that the shortcut evades. -/
theorem queries_append_shortcut :
    ∃ atlas later query renewed, (empty {}).replay journeys = .ok atlas ∧
      (empty {}).replay (journeys ++ [.run shortcut]) = .ok later ∧
      query ∈ atlas.queries 4 3 ∧ renewed ∈ later.queries 4 3 ∧
      renewed.path = query.path ∧ query.ancestors = [2] ∧ renewed.ancestors = [2, 1] ∧
      query.ancestors.Sublist renewed.ancestors ∧ atlas.dominates 1 4 = true := by
  have hvalue : ((empty {}).replay journeys).map (fun atlas =>
      (atlas.dominates 4 4, (atlas.queries 4 3)[0]?)) =
        .ok (true, some ⟨4, [2], journey true, [ready, fork true, arrival]⟩) := by
    cbv
  have hlaterValue : ((empty {}).replay (journeys ++ [.run shortcut])).map (fun later =>
      (later.depth, (later.queries 4 3)[0]?.map Query.ancestors)) = .ok (3, some [2, 1]) := by
    cbv
  obtain ⟨atlas, h, hvalue⟩ := exists_of_map_eq_ok hvalue
  obtain ⟨later, hlater, hlaterValue⟩ := exists_of_map_eq_ok hlaterValue
  obtain ⟨hself, hquery⟩ := Prod.mk.inj hvalue
  obtain ⟨hdepth, hancestors⟩ := Prod.mk.inj hlaterValue
  obtain ⟨renewed, hrenewed, -, hpath, hsublist, hgained⟩ :=
    queries_append h hlater hself (Nat.le_of_eq hdepth) hquery
  rw [hrenewed] at hancestors
  have hrenewedAncestors : renewed.ancestors = [2, 1] := Option.some.inj hancestors
  refine ⟨atlas, later, _, renewed, h, hlater, List.mem_of_getElem? hquery,
    List.mem_of_getElem? hrenewed, hpath, rfl, hrenewedAncestors, hsublist, ?_⟩
  exact hgained 1 (by rw [hrenewedAncestors]; decide) (by decide)

/-! ## Ranks -/

section

variable {settings : Settings} {events more : List Event} {atlas later : Atlas}

/-- Closing a decision from outside changes no rank. -/
theorem ranking_close {clause : Clause} {next : Atlas} (h : atlas.close clause = .ok next) :
    next.ranking = atlas.ranking := by
  obtain ⟨v, -, rfl⟩ := close_eq_ok h
  rfl

variable (h : (empty settings).replay events = .ok atlas)
variable (hlater : (empty settings).replay (events ++ more) = .ok later)

include h hlater

theorem isDecision_append {v : Nat} (hv : v < atlas.size) :
    later.isDecision v = atlas.isDecision v := by
  obtain ⟨clause, hclause⟩ := exists_clause? hv
  rw [isDecision_of_clause? hclause, isDecision_of_clause? (clause?_append h hlater hclause)]

/-- A route keeps its decisions. -/
theorem countP_append {walk : List Nat} (hroute : atlas.Route walk) :
    walk.countP later.isDecision = walk.countP atlas.isDecision := by
  refine List.countP_congr fun v hv => ?_
  rw [isDecision_append h hlater (hroute.lt_size_of_mem hv)]

/-- A route with as few decisions as before is still there. -/
theorem exists_rank_append_le {v rank : Nat} (hrank : (v, rank) ∈ atlas.ranking) :
    ∃ better ≤ rank, (v, better) ∈ later.ranking := by
  obtain ⟨hkind, ⟨back, hroute, rfl⟩, -⟩ := mem_ranking_iff.1 hrank
  rw [← isDecision_append h hlater hroute.lt_size] at hkind
  obtain ⟨better, hbetter, hle⟩ := exists_rank_le_countP hkind (hroute.append h hlater)
  rw [countP_append h hlater hroute] at hle
  exact ⟨better, hle, hbetter⟩

/-- A closed decision is in no open layer, now or later. -/
theorem not_mem_openLayer_append {v : Nat} (hv : atlas.isClosed v = true) (rank : Nat) :
    v ∉ later.openLayer rank := by
  intro hmem
  have hclosed : later.isClosed v = true :=
    isClosed_iff.2 (mem_closed_append h hlater (isClosed_iff.1 hv))
  rw [(mem_openLayer.1 hmem).2] at hclosed
  cases hclosed

/-- **Ranks only improve.**  Whatever happens to an atlas later, a decision that has
a rank now has one then, and it is no larger.  Closing a decision from outside
changes no rank.  A decision that is closed now is then in no open layer. -/
theorem ranking_append :
    (∀ v rank, (v, rank) ∈ atlas.ranking →
      ∃ better ≤ rank, (v, better) ∈ later.ranking) ∧
    (∀ clause marked, atlas.close clause = .ok marked → marked.ranking = atlas.ranking) ∧
    ∀ v, atlas.isClosed v = true → ∀ rank, v ∉ later.openLayer rank :=
  ⟨fun _ _ => exists_rank_append_le h hlater, fun _ _ => ranking_close,
    fun _ => not_mem_openLayer_append h hlater⟩

end

/-- The shortcut leaves one decision on the least route to the arrival, where there
were three; the two ways stay closed. -/
theorem ranking_append_shortcut :
    ∃ atlas later, (empty {}).replay journeys = .ok atlas ∧
      (empty {}).replay (journeys ++ [.run shortcut]) = .ok later ∧
      (4, 3) ∈ atlas.ranking ∧ (∃ better ≤ 3, (4, better) ∈ later.ranking) ∧
      (4, 1) ∈ later.ranking ∧ (2, 2) ∈ later.ranking ∧ 2 ∉ later.openLayer 2 := by
  have hvalue : ((empty {}).replay journeys).map (fun atlas =>
      (atlas.ranking, atlas.isClosed 2)) =
        .ok ([(1, 1), (2, 2), (4, 3), (5, 2)], true) := by
    rfl
  have hlaterValue : ((empty {}).replay (journeys ++ [.run shortcut])).map
      (fun later => later.ranking) = .ok [(1, 1), (2, 2), (4, 1), (5, 2)] := by
    rfl
  obtain ⟨atlas, h, hvalue⟩ := exists_of_map_eq_ok hvalue
  obtain ⟨later, hlater, hlaterRanking⟩ := exists_of_map_eq_ok hlaterValue
  obtain ⟨hranking, hclosed⟩ := Prod.mk.inj hvalue
  have hrank : (4, 3) ∈ atlas.ranking := by
    rw [hranking]
    decide
  obtain ⟨himproves, -, hgone⟩ := ranking_append h hlater
  refine ⟨atlas, later, h, hlater, hrank, himproves 4 3 hrank, ?_, ?_, hgone 2 hclosed 2⟩
  · rw [hlaterRanking]
    decide
  · rw [hlaterRanking]
    decide

end Atlas

end Concolic
