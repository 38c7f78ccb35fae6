import Concolic.Proofs.Pages
import Mathlib

/-!
# Entering a run clause by clause

An atlas takes in the clauses, the steps and the paths of a run each at once.  A gazetteer
goes along the run and enters for every clause what belongs to it.  What the atlas would
have of the run so far tells how far this has come: every further clause adds its vertex,
then its edge or its entry, and then the path to it.  The path is cut from the decisions
of the whole run, and the clauses so far have as many decisions as are cut.

## Main results

* `Atlas.partway_concat`: what one more clause adds to an atlas.
* `Gazetteer.Reaches.advance`: one step.
* `Gazetteer.Shows.exists_entered`: the whole run.
-/

namespace Concolic

/-! ## Entering a run -/

/-- With one more member at the end, the last one before has a follower. -/
theorem zip_tail_concat {α : Type} (xs : List α) (x : α) :
    (xs ++ [x]).zip (xs ++ [x]).tail =
      xs.zip xs.tail ++ (xs.getLast?.map fun y => (y, x)).toList := by
  induction xs with
  | nil => rfl
  | cons y ys ih =>
      cases ys with
      | nil => rfl
      | cons z zs => simpa using ih

theorem take_one_concat {α : Type} (xs : List α) (x : α) :
    (xs ++ [x]).take 1 = xs.take 1 ++ if xs.getLast?.isSome then [] else [x] := by
  cases xs <;> simp

theorem Path.stages_concat (path : Path) (clause : Clause) :
    Path.stages (path ++ [clause]) = Path.stages path ++ [path ++ [clause]] := by
  simp only [stages, List.length_append, List.length_singleton, List.range_succ,
    List.map_append, List.map_singleton]
  congr 1
  · refine List.map_congr_left fun n hn => ?_
    exact List.take_append_of_le_length (List.mem_range.1 hn)
  · rw [List.take_of_length_le (by simp)]

theorem Trace.decisions_concat (done : Trace) (clause : Clause) :
    Trace.decisions (done ++ [clause]) =
      if clause.isDecision then done.decisions ++ [clause] else done.decisions := by
  rw [decisions, List.filter_append, ← decisions]
  cases h : clause.isDecision <;> simp [h]

namespace Atlas

variable {atlas : Atlas} {trace done : Trace} {clause : Clause}

/-- The atlas when of a run the clauses of `done` are entered, and the depth is not taken
over yet. -/
def partway (atlas : Atlas) (trace done : Trace) : Atlas :=
  { atlas.extend done with
    records := atlas.records.recordAll done.decisions.stages trace
    depth := atlas.depth }

/-- The stops so far keep their places. -/
theorem stops_concat (clauses : Roster Clause) (done : Trace) (clause : Clause) :
    (done ++ [clause]).map (clauses.addAll (done ++ [clause])).position =
      done.map (clauses.addAll done).position ++
        [((clauses.addAll done).add clause).position clause] := by
  rw [List.map_append, List.map_singleton, Roster.addAll_append]
  refine congrArg (· ++ _) (List.map_congr_left fun other hother => ?_)
  exact Roster.position_addAll (Roster.mem_addAll.2 (Or.inr hother)) [clause]

theorem records_concat (records : Records) (trace done : Trace) (clause : Clause) :
    records.recordAll (Trace.decisions (done ++ [clause])).stages trace =
      if clause.isDecision then
        ((records.recordAll done.decisions.stages trace).record
          (done.decisions ++ [clause]) trace).2
      else records.recordAll done.decisions.stages trace := by
  rw [Trace.decisions_concat]
  split
  · rw [Path.stages_concat, Records.recordAll, List.foldl_append]
    rfl
  · rfl

/-- **One clause further.** -/
theorem partway_concat (atlas : Atlas) (trace done : Trace) (clause : Clause) :
    atlas.partway trace (done ++ [clause]) =
      let next := ((atlas.partway trace done).entered clause).joined
        (done.getLast?.map (atlas.partway trace done).clauses.position)
        (((atlas.partway trace done).clauses.add clause).position clause)
      if clause.isDecision then next.recorded (done.decisions ++ [clause]) trace else next := by
  rw [partway, extend, stops_concat, zip_tail_concat, Roster.addAll_append,
    Roster.addAll_append, take_one_concat, Roster.addAll_append, List.getLast?_map,
    Option.map_map, Option.isSome_map]
  simp only [records_concat, recorded, joined, Option.map_map, Option.isSome_map]
  by_cases hkind : clause.isDecision = true
  · simp only [if_pos hkind]
    rfl
  · simp only [if_neg hkind]
    rfl

theorem clauses_partway_concat : (atlas.partway trace (done ++ [clause])).clauses =
    (atlas.partway trace done).clauses.add clause :=
  Roster.addAll_append _ _ _

/-- What is entered has its place. -/
theorem mem_clauses_partway (h : clause ∈ done) : clause ∈ (atlas.partway trace done).clauses :=
  Roster.mem_addAll.2 (Or.inr h)

/-- The decisions so far keep their places. -/
theorem itinerary_partway_concat :
    (atlas.partway trace (done ++ [clause])).itinerary done.decisions =
      (atlas.partway trace done).itinerary done.decisions := by
  refine List.map_congr_left fun other hother => ?_
  rw [clauses_partway_concat]
  exact Roster.position_addAll (mem_clauses_partway (List.mem_filter.1 hother).1) [clause]

/-- The clause before has a vertex. -/
theorem previous_lt_entered {u : Nat}
    (hu : done.getLast?.map (atlas.partway trace done).clauses.position = some u) :
    u < ((atlas.partway trace done).entered clause).size := by
  obtain ⟨last, hlast, rfl⟩ := Option.map_eq_some_iff.1 hu
  have hmem : last ∈ (atlas.partway trace done).clauses.toList :=
    mem_clauses_partway (List.mem_of_getLast? hlast)
  exact (List.idxOf_lt_length_iff.2 hmem).trans_le (Roster.prefix_add _ clause).length_le

theorem size_add_le {rest : Trace} (htrace : done ++ clause :: rest = trace) :
    ((atlas.partway trace done).clauses.add clause).size ≤ (atlas.extend trace).size := by
  have hfinal : (atlas.extend trace).clauses =
      ((atlas.partway trace done).clauses.add clause).addAll rest := by
    show atlas.clauses.addAll trace = ((atlas.clauses.addAll done).add clause).addAll rest
    rw [← htrace, Roster.addAll_append, Roster.addAll_cons]
  rw [size, hfinal]
  exact (Roster.prefix_addAll _ rest).length_le

end Atlas

namespace Gazetteer

/-- The entering of a run has come to the end of `done`. -/
structure Reaches (depth : Nat) (atlas : Atlas) (trace done : Trace) (progress : Progress) :
    Prop where
  shows : Shows depth progress.gazetteer (atlas.partway trace done)
  previous : progress.previous? =
    done.getLast?.map (atlas.partway trace done).clauses.position
  count : progress.count = done.decisions.length
  visits : progress.visits = (atlas.partway trace done).itinerary done.decisions

section

variable {depth : Nat} {gazetteer : Gazetteer} {atlas : Atlas}
variable {trace done rest : Trace} {clause : Clause} {progress : Progress}

theorem decisions_of_append (htrace : done ++ clause :: rest = trace)
    (hkind : clause.isDecision = true) :
    done.decisions ++ [clause] ++ rest.decisions = trace.decisions := by
  simp only [← htrace, Trace.decisions, List.filter_append, List.filter_cons_of_pos hkind,
    List.append_assoc, List.singleton_append]

/-- **One clause** of a run is entered. -/
theorem Reaches.advance (h : Reaches depth atlas trace done progress)
    (htrace : done ++ clause :: rest = trace)
    (hroom : (atlas.extend trace).size ≤ vertexLimit) :
    ∃ next, advance trace progress clause = .ok next ∧
      Reaches depth atlas trace (done ++ [clause]) next := by
  obtain ⟨entered, henter, hentered⟩ :=
    h.shows.enter clause ((Atlas.size_add_le htrace).trans hroom)
  have hconcat := Atlas.partway_concat atlas trace done clause
  rw [← h.previous] at hconcat
  have hown : (atlas.partway trace (done ++ [clause])).clauses.position clause =
      ((atlas.partway trace done).clauses.add clause).position clause := by
    rw [Atlas.clauses_partway_concat]
  have hvertex := Atlas.clause?_entered (atlas.partway trace done) clause
  -- from here on the vertex of the clause is `v`
  generalize ((atlas.partway trace done).clauses.add clause).position clause = v at *
  have hprevious : ∀ u, progress.previous? = some u →
      u < ((atlas.partway trace done).entered clause).size :=
    fun u hu => Atlas.previous_lt_entered (h.previous.symm.trans hu)
  obtain ⟨joined, hjoin, hjoined⟩ :=
    hentered.join hprevious (Atlas.lt_size_of_clause? hvertex)
  have hvisits : (atlas.partway trace (done ++ [clause])).itinerary done.decisions =
      progress.visits := Atlas.itinerary_partway_concat.trans h.visits.symm
  have hlast : (done ++ [clause]).getLast?.map
      (atlas.partway trace (done ++ [clause])).clauses.position = some v := by
    rw [List.getLast?_concat, Option.map_some, hown]
  have hdecisions := Trace.decisions_concat done clause
  rw [Gazetteer.advance, henter, ok_bind]
  dsimp only
  rw [hjoin, ok_bind]
  cases hkind : clause.isDecision with
  | false =>
      simp only [hkind, Bool.false_eq_true, if_false] at hconcat hdecisions
      refine ⟨_, rfl, ?_⟩
      exact
        { shows := hconcat ▸ hjoined
          previous := hlast.symm
          count := by
            rw [hdecisions]
            exact h.count
          visits := by
            rw [hdecisions]
            exact hvisits.symm }
  | true =>
      -- what is cut from the decisions of the whole run are the decisions so far
      simp only [hkind, if_true] at hconcat hdecisions
      obtain ⟨recorded, hrecord, hrecorded⟩ :=
        hjoined.record hvertex hkind (decisions_of_append htrace hkind)
      rw [← h.count] at hrecord
      refine ⟨⟨recorded, some v, progress.count + 1, progress.visits ++ [v]⟩, ?_, ?_⟩
      · rw [if_pos rfl, hrecord]
        rfl
      exact
        { shows := hconcat ▸ hrecorded
          previous := hlast.symm
          count := by
            rw [hdecisions, List.length_append, ← h.count]
            rfl
          visits := by
            rw [hdecisions, Atlas.itinerary, List.map_append, ← Atlas.itinerary, hvisits,
              List.map_singleton, hown] }

/-- **A run** is entered clause by clause. -/
theorem Reaches.foldlM (h : Reaches depth atlas trace done progress)
    (htrace : done ++ rest = trace) (hroom : (atlas.extend trace).size ≤ vertexLimit) :
    ∃ final, rest.foldlM (Gazetteer.advance trace) progress = .ok final ∧
      Reaches depth atlas trace trace final := by
  induction rest generalizing done progress with
  | nil =>
      rw [List.append_nil] at htrace
      subst htrace
      exact ⟨progress, rfl, h⟩
  | cons clause rest ih =>
      obtain ⟨next, hnext, hreaches⟩ := h.advance htrace hroom
      obtain ⟨final, hfinal, hend⟩ := ih hreaches (by rw [← htrace]; simp)
      refine ⟨final, ?_, hend⟩
      rw [List.foldlM_cons, hnext, ok_bind, hfinal]

/-- The depth that an atlas says is not shown. -/
theorem Shows.of_depth {other : Nat}
    (h : Shows depth gazetteer { atlas with depth := other }) : Shows depth gazetteer atlas :=
  { h with pages := fun w page hpage => (h.pages w page hpage).congr rfl rfl rfl }

theorem reaches_nil (h : Shows depth gazetteer atlas) :
    Reaches depth atlas trace [] ⟨gazetteer, none, 0, []⟩ where
  shows := h
  previous := rfl
  count := rfl
  visits := rfl

theorem Shows.exists_entered (h : Shows depth gazetteer atlas)
    (hroom : (atlas.extend trace).size ≤ vertexLimit) :
    ∃ final, trace.foldlM (Gazetteer.advance trace) ⟨gazetteer, none, 0, []⟩ = .ok final ∧
      Shows depth final.gazetteer (atlas.extend trace) ∧
      final.visits = (atlas.extend trace).itinerary trace.decisions := by
  have hwhole : [] ++ trace = trace := rfl
  obtain ⟨final, hfinal, hend⟩ := (reaches_nil h).foldlM hwhole hroom
  exact ⟨final, hfinal, hend.shows.of_depth, hend.visits⟩

end

end Gazetteer

end Concolic
