import Concolic.Proofs.Provenance
import Concolic.Proofs.Pruning

/-!
# The order of the runs

Runs may come in any order.  The numbers of the vertices depend on it, and with
them every order of listing, but read as clauses the map is the same: its
clauses, edges and entries, the outcomes of each decision, and the recorded
paths are told by the set of the runs alone.  So this holds of any two histories
with the same runs, whatever was closed from outside in either.

Routes need one thing more.  They begin at the origin, and that is where the
first run began.  A *trail* is a route read as clauses; if the first runs of two
histories began alike, then both have the same trails, hence the same dominance
and the same ranks.

## Main results

* `Atlas.clausesAt_eq`: parts of the map, said of the history.
* `Atlas.route_iff_trail`: routes, said of the history.
* `Atlas.map_eq_of_perm`: what the order of the runs leaves alone.
-/

namespace Concolic

/-! ## Histories with the same runs -/

/-- The same runs took place, in whatever order and however often. -/
def SameRuns (events others : List Event) : Prop :=
  ∀ trace, trace ∈ runs events ↔ trace ∈ runs others

/-- Clauses of which each followed the one before, beginning with the first of
all; the latest stands first. -/
inductive Trail (events : List Event) : List Clause → Prop where
  | start {clause : Clause} :
      (runs events).findSome? List.head? = some clause → Trail events [clause]
  | step {first second : Clause} {back : List Clause} :
      Trail events (first :: back) → Follows events first second →
        Trail events (second :: first :: back)

section

variable {events others : List Event}

/-- The first clause of all opened a run. -/
theorem opens_of_findSome? {clause : Clause}
    (h : (runs events).findSome? List.head? = some clause) : Opens events clause :=
  List.exists_of_findSome?_eq_some h

theorem Trail.observes {trail : List Clause} (h : Trail events trail) :
    ∀ clause ∈ trail, Observes events clause := by
  induction h with
  | start hfirst =>
      intro clause hclause
      rw [List.mem_singleton.1 hclause]
      exact (opens_of_findSome? hfirst).observes
  | step _ hfollows ih =>
      intro clause hclause
      rcases List.mem_cons.1 hclause with rfl | hback
      · exact hfollows.observes.2
      · exact ih clause hback

namespace SameRuns

theorem of_perm {traces changed : List Trace} (hperm : traces.Perm changed) :
    SameRuns (traces.map .run) (changed.map .run) := by
  intro trace
  rw [runs_map_run, runs_map_run]
  exact hperm.mem_iff

variable (hsame : SameRuns events others)

include hsame

theorem symm : SameRuns others events :=
  fun trace => (hsame trace).symm

theorem observes_iff {clause : Clause} :
    Observes events clause ↔ Observes others clause :=
  exists_congr fun trace => and_congr_left' (hsame trace)

theorem follows_iff {first second : Clause} :
    Follows events first second ↔ Follows others first second :=
  exists_congr fun trace => and_congr_left' (hsame trace)

theorem opens_iff {clause : Clause} : Opens events clause ↔ Opens others clause :=
  exists_congr fun trace => and_congr_left' (hsame trace)

theorem followed_iff {path : Path} : Followed events path ↔ Followed others path :=
  exists_congr fun trace => and_congr_left' (hsame trace)

theorem outcomesOf_eq (clause : Clause) :
    outcomesOf events clause = outcomesOf others clause := by
  simp only [outcomesOf, hsame.follows_iff, hsame.opens_iff]

theorem trail {trail : List Clause}
    (hfirst : (runs events).findSome? List.head? = (runs others).findSome? List.head?)
    (h : Trail events trail) : Trail others trail := by
  induction h with
  | start hclause => exact .start (hfirst ▸ hclause)
  | step _ hfollows ih => exact ih.step (hsame.follows_iff.1 hfollows)

theorem trail_iff {trail : List Clause}
    (hfirst : (runs events).findSome? List.head? = (runs others).findSome? List.head?) :
    Trail events trail ↔ Trail others trail :=
  ⟨hsame.trail hfirst, hsame.symm.trail hfirst.symm⟩

end SameRuns

end

namespace Atlas

/-- The clauses of some vertices. -/
def clausesAt (atlas : Atlas) (ids : List Nat) : Set Clause :=
  {clause | ∃ v ∈ ids, atlas.clause? v = some clause}

section

variable {settings : Settings} {events : List Event} {atlas : Atlas}

/-- Distinct vertices are counted by their clauses. -/
theorem encard_clausesAt {ids : List Nat} (hnodup : ids.Nodup)
    (hids : ∀ v ∈ ids, v < atlas.size) : (atlas.clausesAt ids).encard = ids.length := by
  have hclauses : atlas.clausesAt ids = (ids.filterMap atlas.clause?).toFinset := by
    ext clause
    rw [List.coe_toFinset, Set.mem_ofPred_eq, List.mem_filterMap]
    exact Iff.rfl
  rw [hclauses, Set.encard_coe_eq_coe_finsetCard,
    List.toFinset_card_of_nodup (nodup_filterMap_clause? hnodup),
    length_filterMap_clause? hids]

/-! ## The map, said of the history -/

section

variable (h : (empty settings).replay events = .ok atlas)

include h

/-- Vertices that are told by their clauses have those clauses. -/
theorem clausesAt_eq {ids : List Nat} {P : Clause → Prop}
    (hobserved : ∀ clause, P clause → Observes events clause)
    (hids : ∀ v clause, atlas.clause? v = some clause → (v ∈ ids ↔ P clause)) :
    atlas.clausesAt ids = {clause | P clause} := by
  ext clause
  constructor
  · intro hclause
    obtain ⟨v, hv, hclause⟩ := hclause
    exact (hids v clause hclause).1 hv
  · intro hclause
    have hv := clause?_position h (hobserved clause hclause)
    exact ⟨_, (hids _ clause hv).2 hclause, hv⟩

theorem clausesAt_entryList :
    atlas.clausesAt atlas.entryList = {clause | Opens events clause} :=
  clausesAt_eq h (fun _ hopens => hopens.observes) fun _ _ hv => mem_entryList_iff h hv

variable {v : Nat} {clause : Clause} (hv : atlas.clause? v = some clause)

include hv

theorem clausesAt_successors :
    atlas.clausesAt (atlas.successors v) = {other | Follows events clause other} :=
  clausesAt_eq h (fun _ hfollows => hfollows.observes.2)
    fun _ _ hother => mem_successors_iff_follows h hv hother

theorem clausesAt_predecessors :
    atlas.clausesAt (atlas.predecessors v) = {other | Follows events other clause} := by
  refine clausesAt_eq h (fun _ hfollows => hfollows.observes.1) ?_
  intro u other hother
  rw [mem_predecessors_iff h, mem_successors_iff_follows h hother hv]

theorem clausesAt_outcomeIds :
    atlas.clausesAt (atlas.outcomeIds v) = outcomesOf events clause :=
  clausesAt_eq h (fun _ => observes_of_mem_outcomesOf)
    fun _ _ hother => mem_outcomeIds_iff h hv hother

/-- Outcomes are counted by their clauses. -/
theorem encard_outcomesOf :
    (outcomesOf events clause).encard = (atlas.outcomeIds v).length := by
  rw [← clausesAt_outcomeIds h hv]
  exact encard_clausesAt ((pairwise_outcomeIds atlas v).imp Nat.ne_of_lt)
    fun _ hs => lt_size_of_mem_outcomeIds hs

end

/-! ## Routes, said of the history -/

/-- Clauses that end with that of a vertex lead to the vertex. -/
theorem itinerary_cons {v : Nat} {clause : Clause} (hv : atlas.clause? v = some clause)
    (back : List Clause) : atlas.itinerary (clause :: back) = v :: atlas.itinerary back := by
  rw [itinerary, List.map_cons, (clause?_eq_some_iff.1 hv).2, itinerary]

section

variable (h : (empty settings).replay events = .ok atlas)

include h

/-- A trail leads along a route. -/
theorem route_of_trail {trail : List Clause} (htrail : Trail events trail) :
    atlas.Route (atlas.itinerary trail) := by
  induction htrail with
  | @start clause hfirst =>
      have hv := clause?_position h (opens_of_findSome? hfirst).observes
      refine .origin ?_
      rw [origin?_replay h, hfirst, Option.bind_some, find?_eq_some_iff]
      exact hv
  | step _ hfollows ih =>
      obtain ⟨hfirst, hsecond⟩ := Follows.observes hfollows
      exact ih.step ((mem_successors_iff_follows h (clause?_position h hfirst)
        (clause?_position h hsecond)).2 hfollows)

/-- A route is walked by a trail. -/
theorem exists_trail_of_route {walk : List Nat} (hroute : atlas.Route walk) :
    ∃ trail, Trail events trail ∧ atlas.itinerary trail = walk := by
  induction hroute with
  | origin hv =>
      rw [origin?_replay h, Option.bind_eq_some_iff] at hv
      obtain ⟨clause, hfirst, hv⟩ := hv
      refine ⟨[clause], .start hfirst, ?_⟩
      rw [itinerary, List.map_singleton, (clause?_eq_some_iff.1 (find?_eq_some_iff.1 hv)).2]
  | step _ hv ih =>
      obtain ⟨trail, htrail, hwalk⟩ := ih
      obtain ⟨clause, back, rfl, hu, hback⟩ := List.map_eq_cons_iff.1 hwalk
      have hobserved := htrail.observes clause List.mem_cons_self
      have hclause := clause?_position h hobserved
      rw [hu] at hclause
      obtain ⟨first, second, hfollows, hfirst, hsecond⟩ := (mem_successors_iff h).1 hv
      cases hclause.symm.trans hfirst
      refine ⟨second :: clause :: back, htrail.step hfollows, ?_⟩
      rw [itinerary, List.map_cons, (clause?_eq_some_iff.1 hsecond).2]
      exact congrArg _ hwalk

/-- **Routes are trails**, vertex for clause. -/
theorem route_iff_trail {v : Nat} {clause : Clause} (hv : atlas.clause? v = some clause)
    {back : List Nat} : atlas.Route (v :: back) ↔
      ∃ trail, Trail events (clause :: trail) ∧ atlas.itinerary trail = back := by
  constructor
  · intro hroute
    obtain ⟨trail, htrail, hwalk⟩ := exists_trail_of_route h hroute
    obtain ⟨other, rest, rfl, hother, hrest⟩ := List.map_eq_cons_iff.1 hwalk
    have hobserved := clause?_position h (htrail.observes other List.mem_cons_self)
    rw [hother, hv] at hobserved
    cases hobserved
    exact ⟨rest, htrail, hrest⟩
  · intro hwalked
    obtain ⟨trail, htrail, rfl⟩ := hwalked
    rw [← itinerary_cons hv]
    exact route_of_trail h htrail

/-- A route has as many decisions as its trail. -/
theorem countP_itinerary {clauses : List Clause}
    (hobserved : ∀ clause ∈ clauses, Observes events clause) :
    (atlas.itinerary clauses).countP atlas.isDecision =
      clauses.countP Clause.isDecision := by
  rw [itinerary, List.countP_map]
  refine List.countP_congr fun clause hclause => ?_
  rw [Function.comp_apply,
    isDecision_of_clause? (clause?_position h (hobserved clause hclause))]

variable {v w : Nat} {first second : Clause} (hv : atlas.clause? v = some first)
variable (hw : atlas.clause? w = some second)

include hw

/-- The decisions on routes are those on trails. -/
theorem routeCounts_eq_trail :
    atlas.routeCounts w = {count | ∃ back, Trail events (second :: back) ∧
      (second :: back).countP Clause.isDecision = count} := by
  ext count
  constructor
  · intro hcount
    obtain ⟨back, hroute, hcount⟩ := hcount
    obtain ⟨trail, htrail, rfl⟩ := (route_iff_trail h hw).1 hroute
    rw [← itinerary_cons hw, countP_itinerary h htrail.observes] at hcount
    exact ⟨trail, htrail, hcount⟩
  · intro hcount
    obtain ⟨trail, htrail, hcount⟩ := hcount
    refine ⟨atlas.itinerary trail, (route_iff_trail h hw).2 ⟨trail, htrail, rfl⟩, ?_⟩
    rw [← itinerary_cons hw, countP_itinerary h htrail.observes, hcount]

include hv

/-- Dominance is presence on every trail. -/
theorem dominates_iff_trail :
    atlas.dominates v w = true ↔ (∃ back, Trail events (second :: back)) ∧
      ∀ back, Trail events (second :: back) → first ∈ second :: back := by
  have hmem : ∀ trail, Trail events (second :: trail) →
      (v ∈ w :: atlas.itinerary trail ↔ first ∈ second :: trail) := by
    intro trail htrail
    rw [← itinerary_cons hw, mem_itinerary_iff h htrail.observes, hv]
    simp
  rw [dominates_eq_true_iff]
  constructor
  · intro hdominates
    obtain ⟨⟨back, hroute⟩, hall⟩ := hdominates
    obtain ⟨trail, htrail, -⟩ := (route_iff_trail h hw).1 hroute
    refine ⟨⟨trail, htrail⟩, ?_⟩
    intro other hother
    exact (hmem other hother).1 (hall _ ((route_iff_trail h hw).2 ⟨other, hother, rfl⟩))
  · intro hdominates
    obtain ⟨⟨trail, htrail⟩, hall⟩ := hdominates
    refine ⟨⟨_, (route_iff_trail h hw).2 ⟨trail, htrail, rfl⟩⟩, ?_⟩
    intro back hroute
    obtain ⟨other, hother, rfl⟩ := (route_iff_trail h hw).1 hroute
    exact (hmem other hother).2 (hall other hother)

end

end

/-! ## Any order of the runs -/

section

variable {settings otherSettings : Settings} {events others : List Event}
variable {atlas other : Atlas} (hsame : SameRuns events others)
variable (h : (empty settings).replay events = .ok atlas)
variable (hother : (empty otherSettings).replay others = .ok other)

include hsame h hother

theorem mem_clauses_congr {clause : Clause} :
    clause ∈ atlas.clauses ↔ clause ∈ other.clauses := by
  rw [mem_clauses_iff h, mem_clauses_iff hother, hsame.observes_iff]

theorem depth_congr : atlas.depth = other.depth := by
  have hdepth := isGreatest_depth h
  simp only [hsame _] at hdepth
  exact hdepth.unique (isGreatest_depth hother)

theorem clausesAt_entryList_congr :
    atlas.clausesAt atlas.entryList = other.clausesAt other.entryList := by
  rw [clausesAt_entryList h, clausesAt_entryList hother]
  simp only [hsame.opens_iff]

section

variable {clause : Clause} {v w : Nat}
variable (hv : atlas.clause? v = some clause) (hw : other.clause? w = some clause)

include hv hw

theorem clausesAt_successors_congr :
    atlas.clausesAt (atlas.successors v) = other.clausesAt (other.successors w) := by
  rw [clausesAt_successors h hv, clausesAt_successors hother hw]
  simp only [hsame.follows_iff]

theorem clausesAt_predecessors_congr :
    atlas.clausesAt (atlas.predecessors v) = other.clausesAt (other.predecessors w) := by
  rw [clausesAt_predecessors h hv, clausesAt_predecessors hother hw]
  simp only [hsame.follows_iff]

theorem clausesAt_outcomeIds_congr :
    atlas.clausesAt (atlas.outcomeIds v) = other.clausesAt (other.outcomeIds w) := by
  rw [clausesAt_outcomeIds h hv, clausesAt_outcomeIds hother hw, hsame.outcomesOf_eq]

theorem length_outcomeIds_congr :
    (atlas.outcomeIds v).length = (other.outcomeIds w).length := by
  have hlength := encard_outcomesOf h hv
  rw [hsame.outcomesOf_eq, encard_outcomesOf hother hw] at hlength
  exact (Nat.cast_injective hlength).symm

theorem mem_paths_recordsAt_congr {path : Path} :
    path ∈ (atlas.recordsAt v).paths ↔ path ∈ (other.recordsAt w).paths := by
  rw [mem_paths_recordsAt h, mem_paths_recordsAt hother, hv, hw, hsame.followed_iff]

end

section

variable (hfirst : (runs events).findSome? List.head? = (runs others).findSome? List.head?)
variable {first second : Clause} {a b c d : Nat}
variable (ha : atlas.clause? a = some first) (hb : atlas.clause? b = some second)
variable (hc : other.clause? c = some first) (hd : other.clause? d = some second)

include hfirst

theorem mem_ranking_congr (hb : atlas.clause? b = some second)
    (hd : other.clause? d = some second) {rank : Nat} :
    (b, rank) ∈ atlas.ranking ↔ (d, rank) ∈ other.ranking := by
  rw [mem_ranking_iff, mem_ranking_iff, isDecision_of_clause? hb, isDecision_of_clause? hd,
    routeCounts_eq_trail h hb, routeCounts_eq_trail hother hd]
  simp only [hsame.trail_iff hfirst]

include ha hb hc hd

theorem dominates_congr : atlas.dominates a b = other.dominates c d := by
  rw [Bool.eq_iff_iff, dominates_iff_trail h ha hb, dominates_iff_trail hother hc hd]
  simp only [hsame.trail_iff hfirst]

end

end

/-- **The order of the runs does not matter for the map.**  Let the same runs be
added to two empty atlases, in one order and in another.  Read as clauses, both
have the same vertices and entries, and each clause has the same successors,
predecessors and outcomes, as many outcomes, and the same recorded paths; the
depth is the same too.  If the first clause of all is the same in both orders,
then so are dominance and the ranks. -/
theorem map_eq_of_perm {traces changed : List Trace} (hperm : traces.Perm changed)
    {settings otherSettings : Settings} {atlas other : Atlas}
    (h : (empty settings).replay (traces.map .run) = .ok atlas)
    (hother : (empty otherSettings).replay (changed.map .run) = .ok other) :
    (∀ clause, (∃ v, atlas.find? clause = some v) ↔ ∃ w, other.find? clause = some w) ∧
    atlas.clausesAt atlas.entryList = other.clausesAt other.entryList ∧
    atlas.depth = other.depth ∧
    (∀ clause v w, atlas.find? clause = some v → other.find? clause = some w →
      atlas.clausesAt (atlas.successors v) = other.clausesAt (other.successors w) ∧
      atlas.clausesAt (atlas.predecessors v) = other.clausesAt (other.predecessors w) ∧
      (∃ ids otherIds, atlas.outcomes v = .ok ids ∧ other.outcomes w = .ok otherIds ∧
        atlas.clausesAt ids = other.clausesAt otherIds) ∧
      (∃ count, atlas.outcomeCount v = .ok count ∧ other.outcomeCount w = .ok count) ∧
      ∀ path, path ∈ (atlas.recordsAt v).paths ↔ path ∈ (other.recordsAt w).paths) ∧
    (traces.findSome? List.head? = changed.findSome? List.head? →
      ∀ first second a b c d, atlas.find? first = some a → atlas.find? second = some b →
        other.find? first = some c → other.find? second = some d →
          atlas.dominates a b = other.dominates c d ∧
          ∀ rank, (b, rank) ∈ atlas.ranking ↔ (d, rank) ∈ other.ranking) := by
  have hsame := SameRuns.of_perm hperm
  simp only [find?_eq_some_iff]
  refine ⟨?_, clausesAt_entryList_congr hsame h hother, depth_congr hsame h hother, ?_, ?_⟩
  · intro clause
    simp only [clause?_eq_some_iff, exists_and_left, exists_eq', and_true]
    exact mem_clauses_congr hsame h hother
  · intro clause v w hv hw
    have hsize := lt_size_of_clause? hv
    have hotherSize := lt_size_of_clause? hw
    refine ⟨clausesAt_successors_congr hsame h hother hv hw,
      clausesAt_predecessors_congr hsame h hother hv hw, ?_, ?_,
      fun path => mem_paths_recordsAt_congr hsame h hother hv hw⟩
    · exact ⟨_, _, outcomes_eq_ok_iff.2 ⟨hsize, rfl⟩, outcomes_eq_ok_iff.2 ⟨hotherSize, rfl⟩,
        clausesAt_outcomeIds_congr hsame h hother hv hw⟩
    · exact ⟨_, outcomeCount_eq_ok_iff.2 ⟨hsize, rfl⟩, outcomeCount_eq_ok_iff.2
        ⟨hotherSize, (length_outcomeIds_congr hsame h hother hv hw).symm⟩⟩
  · intro hfirst first second a b c d ha hb hc hd
    rw [← runs_map_run traces, ← runs_map_run changed] at hfirst
    exact ⟨dominates_congr hsame h hother hfirst ha hb hc hd,
      fun rank => mem_ranking_congr hsame h hother hfirst hb hd⟩

/-- In the other order the two ways swap their vertices, and all else that is known
of one of them still holds. -/
theorem map_eq_of_perm_journeys :
    ∃ atlas other, [journey true, journey false].Perm [journey false, journey true] ∧
      (empty {}).replay ([journey true, journey false].map .run) = .ok atlas ∧
      (empty {}).replay ([journey false, journey true].map .run) = .ok other ∧
      atlas.find? (fork true) = some 2 ∧ other.find? (fork true) = some 5 ∧
      other.outcomeCount 5 = .ok 2 ∧ other.dominates 1 5 = true ∧
      (5, 2) ∈ other.ranking := by
  have hperm : [journey true, journey false].Perm [journey false, journey true] :=
    List.Perm.swap _ _ _
  have hvalue : ((empty {}).replay ([journey true, journey false].map .run)).map
      (fun atlas => (atlas.find? ready, atlas.find? (fork true), atlas.outcomeCount 2,
        atlas.dominates 1 2, atlas.ranking)) =
        .ok (some 1, some 2, .ok 2, true, [(1, 1), (2, 2), (4, 3), (5, 2)]) := by
    cbv
  have hotherValue : ((empty {}).replay ([journey false, journey true].map .run)).map
      (fun other => (other.find? ready, other.find? (fork true))) = .ok (some 1, some 5) := by
    cbv
  obtain ⟨atlas, h, hvalue⟩ := exists_of_map_eq_ok hvalue
  obtain ⟨other, hother, hotherValue⟩ := exists_of_map_eq_ok hotherValue
  simp only [Prod.mk.injEq] at hvalue hotherValue
  obtain ⟨hready, hfork, hcount, hdominates, hranking⟩ := hvalue
  obtain ⟨hotherReady, hotherFork⟩ := hotherValue
  obtain ⟨-, -, -, hclause, hroutes⟩ := map_eq_of_perm hperm h hother
  obtain ⟨-, -, -, ⟨count, hcounted, hotherCounted⟩, -⟩ :=
    hclause (fork true) 2 5 hfork hotherFork
  rw [hcount] at hcounted
  cases hcounted
  obtain ⟨hsame, hranks⟩ :=
    hroutes rfl ready (fork true) 1 2 1 5 hready hfork hotherReady hotherFork
  refine ⟨atlas, other, hperm, h, hother, hfork, hotherFork, hotherCounted, ?_, ?_⟩
  · rw [← hsame, hdominates]
  · rw [← hranks 2, hranking]
    decide

end Atlas

end Concolic
