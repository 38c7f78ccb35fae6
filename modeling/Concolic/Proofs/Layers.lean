import Concolic.Proofs.Pruning

/-!
# Ranks and layers

The rank of a decision is the least number of decisions on a route to it.  The
decision itself is counted, so ranks begin with one.

Cut a route with the least number at the last decision before its end.  The part
before the cut has the least number for that decision, for with fewer one could
go on from there to the end as before.  So each layer but the first is entered
from the layer below it, and below a rank that occurs all ranks occur.  A
decision that dominates another is on every route to it, so it comes earlier on
one with the least number, and its rank is lower.

## Main results

* `Atlas.exists_rank_below`: a layer is entered from the layer below it.
* `Atlas.layers_without_gaps`: the layers follow one another without a gap.
* `Atlas.mem_searchOrder_iff`: which decisions a search visits.
* `Atlas.rank_lt_of_dominates`: dominance raises ranks.
* `Atlas.ranking_respects_dominance`: dominance and ranks agree.
-/

namespace Concolic

namespace Atlas

section

variable {atlas : Atlas}

/-! ## Routes, cut and joined -/

/-- What a route passed up to one of its vertices is a route to that vertex. -/
theorem Route.earlier {v : Nat} {recent back : List Nat}
    (h : atlas.Route (recent ++ v :: back)) : atlas.Route (v :: back) :=
  route_iff_walk.2 (route_iff_walk.1 h).earlier

/-- A route may come to one of its vertices in another way and go on as before. -/
theorem Route.reroute {v : Nat} {recent back other : List Nat}
    (h : atlas.Route (recent ++ v :: back)) (hother : atlas.Route (v :: other)) :
    atlas.Route (recent ++ v :: other) :=
  route_iff_walk.2 ((route_iff_walk.1 h).reroute (route_iff_walk.1 hother))

/-- All that a route passes is on the map. -/
theorem Route.lt_size_of_mem {walk : List Nat} (h : atlas.Route walk) {v : Nat}
    (hv : v ∈ walk) : v < atlas.size := by
  obtain ⟨recent, back, rfl⟩ := List.append_of_mem hv
  exact h.earlier.lt_size

/-- Every route passes the origin. -/
theorem Route.origin_mem {origin : Nat} (horigin : atlas.origin? = some origin)
    {walk : List Nat} (h : atlas.Route walk) : origin ∈ walk := by
  obtain ⟨rfl, -⟩ := origin?_eq_some_iff.1 horigin
  exact (route_iff_walk.1 h).start_mem

/-- The origin dominates whatever is within reach. -/
theorem exists_origin_dominates {v : Nat} (hwithin : atlas.Within v) :
    ∃ origin, atlas.origin? = some origin ∧ atlas.dominates origin v = true := by
  have hpos : 0 < atlas.size := by
    obtain ⟨back, hroute⟩ := hwithin
    have hlt := hroute.lt_size
    omega
  have horigin : atlas.origin? = some 0 := origin?_eq_some_iff.2 ⟨rfl, hpos⟩
  refine ⟨0, horigin, dominates_eq_true_iff.2 ⟨hwithin, ?_⟩⟩
  intro back hroute
  exact hroute.origin_mem horigin

/-! ## Ranks -/

variable {v rank : Nat}

theorem eq_of_mem_ranking {other : Nat} (h : (v, rank) ∈ atlas.ranking)
    (hother : (v, other) ∈ atlas.ranking) : rank = other :=
  (mem_ranking_iff.1 h).2.unique (mem_ranking_iff.1 hother).2

/-- Some route has as many decisions as the rank says, one of them at its end. -/
theorem exists_route_of_mem_ranking (h : (v, rank) ∈ atlas.ranking) :
    ∃ back, atlas.Route (v :: back) ∧ back.countP atlas.isDecision + 1 = rank := by
  obtain ⟨hkind, ⟨back, hroute, hcount⟩, -⟩ := mem_ranking_iff.1 h
  rw [List.countP_cons_of_pos hkind] at hcount
  exact ⟨back, hroute, hcount⟩

/-- No route to a decision has fewer decisions than its rank says. -/
theorem exists_rank_le_countP {back : List Nat} (hkind : atlas.isDecision v = true)
    (hroute : atlas.Route (v :: back)) :
    ∃ rank, (v, rank) ∈ atlas.ranking ∧ rank ≤ (v :: back).countP atlas.isDecision := by
  have hlisted : v ∈ atlas.ranking.map Prod.fst :=
    mem_map_fst_ranking_iff.2 ⟨hkind, back, hroute⟩
  obtain ⟨⟨w, rank⟩, hrank, rfl⟩ := List.mem_map.1 hlisted
  exact ⟨rank, hrank, (mem_ranking_iff.1 hrank).2.2 ⟨back, hroute, rfl⟩⟩

theorem one_le_rank (h : (v, rank) ∈ atlas.ranking) : 1 ≤ rank := by
  obtain ⟨back, -, hcount⟩ := exists_route_of_mem_ranking h
  omega

/-- A walk with decisions has a latest one, and passed effects only after it. -/
theorem exists_latest_decision {walk : List Nat} (hpos : 0 < walk.countP atlas.isDecision) :
    ∃ between u back, walk = between ++ u :: back ∧ atlas.isDecision u = true ∧
      (∀ w ∈ between, atlas.isDecision w = false) ∧
        walk.countP atlas.isDecision = (u :: back).countP atlas.isDecision := by
  have hsome : (walk.find? atlas.isDecision).isSome := by
    rw [List.find?_isSome]
    exact List.countP_pos_iff.1 hpos
  obtain ⟨u, hu⟩ := Option.isSome_iff_exists.1 hsome
  obtain ⟨hkind, between, back, rfl, heffects⟩ := List.find?_eq_some_iff_append.1 hu
  have hbetween : ∀ w ∈ between, atlas.isDecision w = false := by
    intro w hw
    simpa using heffects w hw
  refine ⟨between, u, back, rfl, hkind, hbetween, ?_⟩
  have hnone : between.countP atlas.isDecision = 0 := by
    rw [List.countP_eq_zero]
    intro w hw
    rw [hbetween w hw]
    exact Bool.false_ne_true
  rw [List.countP_append, hnone, Nat.zero_add]

/-- A route with the least number of decisions has, up to each decision that it
passes, the least number for that decision. -/
theorem mem_ranking_of_least {u : Nat} {recent back : List Nat}
    (hkind : atlas.isDecision u = true)
    (hroute : atlas.Route (v :: (recent ++ u :: back)))
    (hleast : (v, (v :: (recent ++ u :: back)).countP atlas.isDecision) ∈ atlas.ranking) :
    (u, (u :: back).countP atlas.isDecision) ∈ atlas.ranking := by
  have hcut : atlas.Route ((v :: recent) ++ u :: back) := hroute
  refine mem_ranking_iff.2 ⟨hkind, ⟨back, hcut.earlier, rfl⟩, ?_⟩
  rintro count ⟨other, hother, rfl⟩
  have hjoined : atlas.Route (v :: (recent ++ u :: other)) := hcut.reroute hother
  have hle := (mem_ranking_iff.1 hleast).2.2 ⟨_, hjoined, rfl⟩
  simp only [List.countP_cons, List.countP_append] at hle ⊢
  omega

/-- **A layer is entered from the layer below it**, with effects only in between. -/
theorem exists_rank_below (h : (v, rank + 1) ∈ atlas.ranking) (hpos : 1 ≤ rank) :
    ∃ u between back, (u, rank) ∈ atlas.ranking ∧
      atlas.Route (v :: (between ++ u :: back)) ∧
        ∀ w ∈ between, atlas.isDecision w = false := by
  obtain ⟨trail, hroute, hcount⟩ := exists_route_of_mem_ranking h
  have hrank : trail.countP atlas.isDecision = rank := Nat.succ.inj hcount
  obtain ⟨between, u, back, rfl, hkind, heffects, hlatest⟩ :=
    exists_latest_decision (by rw [hrank]; exact hpos)
  have hleast : (v, (v :: (between ++ u :: back)).countP atlas.isDecision) ∈
      atlas.ranking := by
    rwa [List.countP_cons_of_pos (mem_ranking_iff.1 h).1, hrank]
  have hbelow := mem_ranking_of_least hkind hroute hleast
  rw [← hlatest, hrank] at hbelow
  exact ⟨u, between, back, hbelow, hroute, heffects⟩

/-- Below a rank that occurs all ranks occur. -/
theorem exists_mem_ranking_of_le {lower : Nat} (h : (v, rank) ∈ atlas.ranking)
    (hpos : 1 ≤ lower) (hle : lower ≤ rank) : ∃ u, (u, lower) ∈ atlas.ranking := by
  induction rank, hle using Nat.le_induction generalizing v with
  | base => exact ⟨v, h⟩
  | succ rank hle ih =>
      obtain ⟨u, -, -, hu, -⟩ := exists_rank_below h (hpos.trans hle)
      exact ih hu

/-! ## Layers -/

theorem mem_layer : v ∈ atlas.layer rank ↔ (v, rank) ∈ atlas.ranking := by
  simp [layer]

/-- A decision counts itself, so no rank is zero. -/
theorem layer_zero (atlas : Atlas) : atlas.layer 0 = [] := by
  rw [List.eq_nil_iff_forall_not_mem]
  intro v hv
  have hpos := one_le_rank (mem_layer.1 hv)
  omega

/-- From the layer below, a decision is reached through effects alone. -/
theorem exists_walk_from_layer_below (hpos : 1 ≤ rank) (hv : v ∈ atlas.layer (rank + 1)) :
    ∃ u ∈ atlas.layer rank, ∃ between, atlas.flow.Walk u (v :: (between ++ [u])) ∧
      ∀ w ∈ between, atlas.isDecision w = false := by
  obtain ⟨u, between, back, hu, hroute, heffects⟩ := exists_rank_below (mem_layer.1 hv) hpos
  have hwalk : atlas.flow.Walk atlas.flow.root ((v :: between) ++ u :: back) :=
    route_iff_walk.1 hroute
  exact ⟨u, mem_layer.2 hu, between, hwalk.later, heffects⟩

/-- Above an empty layer all layers are empty. -/
theorem layer_eq_nil_of_le {higher : Nat} (hpos : 1 ≤ rank) (hempty : atlas.layer rank = [])
    (hle : rank ≤ higher) : atlas.layer higher = [] := by
  rw [List.eq_nil_iff_forall_not_mem]
  intro v hv
  obtain ⟨u, hu⟩ := exists_mem_ranking_of_le (mem_layer.1 hv) hpos hle
  have hmem : u ∈ atlas.layer rank := mem_layer.2 hu
  rw [hempty] at hmem
  cases hmem

/-- **Layers have no gaps.**  There is no layer zero.  From layer one on, each
decision of the next layer is reached from some decision of the layer by a walk with
effects alone in between; so above an empty layer there is nothing. -/
theorem layers_without_gaps (atlas : Atlas) :
    atlas.layer 0 = [] ∧
    (∀ rank, 1 ≤ rank → ∀ v ∈ atlas.layer (rank + 1), ∃ u ∈ atlas.layer rank,
      ∃ between, atlas.flow.Walk u (v :: (between ++ [u])) ∧
        ∀ w ∈ between, atlas.isDecision w = false) ∧
    ∀ rank, 1 ≤ rank → atlas.layer rank = [] →
      ∀ higher, rank ≤ higher → atlas.layer higher = [] := by
  refine ⟨layer_zero atlas, ?_, ?_⟩
  · intro rank hpos v hv
    exact exists_walk_from_layer_below hpos hv
  · intro rank hpos hempty higher hle
    exact layer_eq_nil_of_le hpos hempty hle

/-- Between the two ways and the arrival there is the place where they meet, which is
an effect.  Nothing lies behind the arrival. -/
theorem layers_without_gaps_journeys :
    ∃ atlas, (empty {}).replay journeys = .ok atlas ∧ atlas.layer 2 = [2, 5] ∧
      4 ∈ atlas.layer 3 ∧
      (∃ u ∈ [2, 5], ∃ between, atlas.flow.Walk u (4 :: (between ++ [u])) ∧
        ∀ w ∈ between, atlas.isDecision w = false) ∧
      ∀ higher, 4 ≤ higher → atlas.layer higher = [] := by
  have hvalue : ((empty {}).replay journeys).map (fun atlas =>
      (atlas.layer 2, atlas.layer 3, atlas.layer 4)) = .ok ([2, 5], [4], []) := by
    rfl
  obtain ⟨atlas, h, hvalue⟩ := exists_of_map_eq_ok hvalue
  simp only [Prod.mk.injEq] at hvalue
  obtain ⟨htwo, hthree, hfour⟩ := hvalue
  have hmem : 4 ∈ atlas.layer 3 := by
    rw [hthree]
    decide
  obtain ⟨-, hbelow, habove⟩ := layers_without_gaps atlas
  have hentered := hbelow 2 (by decide) 4 hmem
  rw [htwo] at hentered
  exact ⟨atlas, h, htwo, hmem, hentered, habove 4 (by decide) hfour⟩

theorem mem_openLayer :
    v ∈ atlas.openLayer rank ↔ (v, rank) ∈ atlas.ranking ∧ atlas.isClosed v = false := by
  rw [openLayer, List.mem_filter, mem_layer, Bool.not_eq_true']

theorem nodup_openLayer (atlas : Atlas) (rank : Nat) : (atlas.openLayer rank).Nodup := by
  have hlisted : (atlas.ranking.map Prod.fst).Nodup :=
    (pairwise_map_fst_ranking atlas).imp Nat.ne_of_lt
  exact (hlisted.sublist (List.filter_sublist.map Prod.fst)).filter _

theorem mem_rounds : rank ∈ atlas.rounds ↔ 1 ≤ rank ∧ rank ≤ atlas.depth := by
  rw [rounds, List.mem_map]
  constructor
  · rintro ⟨n, hn, rfl⟩
    have := List.mem_range.1 hn
    omega
  · intro hrank
    exact ⟨rank - 1, List.mem_range.2 (by omega), by omega⟩

/-- The open decisions in the order in which a search takes them: layer after layer,
up to the depth. -/
def searchOrder (atlas : Atlas) : List Nat :=
  atlas.rounds.flatMap atlas.openLayer

/-- **What a search visits**: the open decisions whose rank is within the depth. -/
theorem mem_searchOrder_iff :
    v ∈ atlas.searchOrder ↔
      atlas.isClosed v = false ∧ ∃ rank ≤ atlas.depth, (v, rank) ∈ atlas.ranking := by
  simp only [searchOrder, List.mem_flatMap, mem_openLayer, mem_rounds]
  constructor
  · rintro ⟨rank, ⟨-, hle⟩, hrank, hopen⟩
    exact ⟨hopen, rank, hle, hrank⟩
  · rintro ⟨hopen, rank, hle, hrank⟩
    exact ⟨rank, ⟨one_le_rank hrank, hle⟩, hrank, hopen⟩

/-- A search visits no decision twice. -/
theorem nodup_searchOrder (atlas : Atlas) : atlas.searchOrder.Nodup := by
  refine List.nodup_flatMap.2 ⟨fun rank _ => nodup_openLayer atlas rank, ?_⟩
  have hrounds : atlas.rounds.Nodup :=
    List.nodup_range.map fun _ _ => Nat.succ.inj
  refine hrounds.imp ?_
  intro rank other hne v hv hother
  exact hne (eq_of_mem_ranking (mem_openLayer.1 hv).1 (mem_openLayer.1 hother).1)

/-! ## Dominance -/

/-- **Dominance raises ranks.** -/
theorem rank_lt_of_dominates {a b : Nat} (hne : a ≠ b) (ha : atlas.isDecision a = true)
    (hdominates : atlas.dominates a b = true) (h : (b, rank) ∈ atlas.ranking) :
    ∃ lower, (a, lower) ∈ atlas.ranking ∧ lower < rank := by
  obtain ⟨back, hroute, hcount⟩ := exists_route_of_mem_ranking h
  have hmem : a ∈ back := by
    have hpassed := (dominates_eq_true_iff.1 hdominates).2 back hroute
    exact (List.mem_cons.1 hpassed).resolve_left hne
  obtain ⟨recent, rest, rfl⟩ := List.append_of_mem hmem
  have hcut : atlas.Route ((b :: recent) ++ a :: rest) := hroute
  obtain ⟨lower, hlower, hle⟩ := exists_rank_le_countP ha hcut.earlier
  rw [List.countP_append] at hcount
  exact ⟨lower, hlower, by omega⟩

theorem mem_dominators_iff {a b : Nat} :
    a ∈ atlas.dominators b ↔ atlas.dominates a b = true := by
  rw [dominates, FlowGraph.dominates, List.contains_iff_mem]
  rfl

theorem nodup_dominators (atlas : Atlas) (v : Nat) : (atlas.dominators v).Nodup :=
  FlowGraph.nodup_dominators atlas.flow v

/-- All dominators are on each route, so the rank is no less than the number of
decisions among them. -/
theorem countP_dominators_le (h : (v, rank) ∈ atlas.ranking) :
    (atlas.dominators v).countP atlas.isDecision ≤ rank := by
  obtain ⟨-, ⟨back, hroute, rfl⟩, -⟩ := mem_ranking_iff.1 h
  rw [List.countP_eq_length_filter, List.countP_eq_length_filter]
  refine List.Nodup.length_le_of_subset ((nodup_dominators atlas v).filter _) ?_
  intro a ha
  obtain ⟨hmem, hkind⟩ := List.mem_filter.1 ha
  have hdominates := dominates_eq_true_iff.1 (mem_dominators_iff.1 hmem)
  exact List.mem_filter.2 ⟨hdominates.2 back hroute, hkind⟩

/-- **Dominance and ranks agree.**  Of two decisions of which one dominates the
other, both are ranked, and the one that dominates has the lower rank.  The rank of
a decision is no less than the number of decisions among its dominators, of which it
is one itself. -/
theorem ranking_respects_dominance (atlas : Atlas) :
    (∀ a b, a ≠ b → atlas.isDecision a = true → atlas.isDecision b = true →
      atlas.dominates a b = true →
        ∃ r s, (a, r) ∈ atlas.ranking ∧ (b, s) ∈ atlas.ranking ∧ r < s) ∧
    ∀ b rank, (b, rank) ∈ atlas.ranking →
      b ∈ atlas.dominators b ∧ (atlas.dominators b).Nodup ∧
        (atlas.dominators b).countP atlas.isDecision ≤ rank := by
  constructor
  · intro a b hne ha hb hdominates
    obtain ⟨back, hroute⟩ := (dominates_eq_true_iff.1 hdominates).1
    obtain ⟨s, hs, -⟩ := exists_rank_le_countP hb hroute
    obtain ⟨r, hr, hlt⟩ := rank_lt_of_dominates hne ha hdominates hs
    exact ⟨r, s, hr, hs, hlt⟩
  · intro b rank hrank
    obtain ⟨back, hroute, -⟩ := exists_route_of_mem_ranking hrank
    exact ⟨mem_dominators_iff.2 (dominates_self ⟨back, hroute⟩), nodup_dominators atlas b,
      countP_dominators_le hrank⟩

end

/-- The condition under which both ways start dominates the arrival behind them; of
the three decisions on each way two dominate it. -/
theorem ranking_respects_dominance_journeys :
    ∃ atlas, (empty {}).replay journeys = .ok atlas ∧ atlas.dominates 1 4 = true ∧
      (∃ r s, (1, r) ∈ atlas.ranking ∧ (4, s) ∈ atlas.ranking ∧ r < s) ∧
      (4, 3) ∈ atlas.ranking ∧ atlas.dominators 4 = [4, 3, 1, 0] ∧
      (atlas.dominators 4).countP atlas.isDecision ≤ 3 := by
  have hvalue : ((empty {}).replay journeys).map (fun atlas =>
      (atlas.isDecision 1, atlas.isDecision 4, atlas.dominates 1 4, atlas.dominators 4,
        atlas.ranking)) =
        .ok (true, true, true, [4, 3, 1, 0], [(1, 1), (2, 2), (4, 3), (5, 2)]) := by
    cbv
  obtain ⟨atlas, h, hvalue⟩ := exists_of_map_eq_ok hvalue
  simp only [Prod.mk.injEq] at hvalue
  obtain ⟨hready, harrival, hdominates, hlist, hranking⟩ := hvalue
  have hrank : (4, 3) ∈ atlas.ranking := by
    rw [hranking]
    decide
  obtain ⟨hlower, hcount⟩ := ranking_respects_dominance atlas
  exact ⟨atlas, h, hdominates, hlower 1 4 (by decide) hready harrival hdominates, hrank,
    hlist, (hcount 4 3 hrank).2.2⟩

end Atlas

end Concolic
