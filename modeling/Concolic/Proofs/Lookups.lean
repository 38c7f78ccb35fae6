import Concolic.Atlas.Strict
import Concolic.Proofs.Layers
import Concolic.Proofs.Merging
import Concolic.Proofs.Pruning
import Concolic.Proofs.Refusal

/-!
# Every lookup succeeds

What an atlas refers to is on its map: the ends of its edges, its entries, and the
clauses of its paths.  Besides, no decision on the map is at a jump table without
keys.  All events keep this, and it is all that the questions about an atlas rely
on.  So a strict question, which refuses a reference that leads nowhere, is answered
in the same way as the question that passes over it.

What is left are the requests that name a vertex or a clause.  They are refused
exactly if the vertex is none of the atlas, or the clause no observed decision, and
a refusal changes nothing.

## Main results

* `Atlas.resolved_replay`: the references of an atlas with a history lead somewhere.
* `Atlas.Resolved.sweep_eq_ok`, `Atlas.Resolved.queries_eq_ok`: the sweep and the
  queries, looked up strictly.
* `Atlas.requests_safe`: all requests.
-/

namespace Concolic

/-- Looking up all positions of a list gives the list. -/
theorem filterMap_getElem?_range {α : Type} (xs : List α) :
    (List.range xs.length).filterMap (xs[·]?) = xs := by
  induction xs with
  | nil => rfl
  | cons x xs ih =>
      rw [List.length_cons, List.range_succ_eq_map, List.filterMap_cons,
        List.getElem?_cons_zero, List.filterMap_map]
      exact congrArg (x :: ·) ih

namespace Atlas

/-! ## References -/

/-- What an atlas refers to is on its map, and the decisions on its map have a
well-formed number of outcomes. -/
structure Resolved (atlas : Atlas) : Prop where
  edges : ∀ u v, (u, v) ∈ atlas.edges → u < atlas.size ∧ v < atlas.size
  entries : ∀ v ∈ atlas.entries, v < atlas.size
  paths : ∀ path ∈ atlas.records.paths, ∀ clause ∈ path, clause ∈ atlas.clauses
  thresholds : ∀ clause ∈ atlas.clauses, clause.isDecision = true →
    ∃ count, clause.threshold = .ok count

section

variable {settings : Settings} {events : List Event} {atlas : Atlas} {v : Nat}

/-- **References lead somewhere**, whatever happened to the atlas. -/
theorem resolved_replay (h : (empty settings).replay events = .ok atlas) :
    Resolved atlas := by
  refine { edges := ?_, entries := ?_, paths := ?_, thresholds := ?_ }
  · intro u v hedge
    obtain ⟨first, second, -, hu, hv⟩ := (mem_edges_iff h).1 hedge
    exact ⟨lt_size_of_clause? hu, lt_size_of_clause? hv⟩
  · intro v hentry
    obtain ⟨clause, -, hv⟩ := (mem_entries_iff h).1 hentry
    exact lt_size_of_clause? hv
  · intro path hpath clause hclause
    obtain ⟨⟨_, trace⟩, hentry, rfl⟩ := List.mem_map.1 hpath
    obtain ⟨hrun, hprefix⟩ := ((mem_entries_replay h).1 hentry).2.followed
    exact (mem_clauses_iff h).2 (Followed.decision ⟨trace, hrun, hprefix⟩ hclause).2
  · intro clause hclause hkind
    exact exists_threshold h hclause hkind

/-! ## Looking up vertices -/

namespace Strict

theorem clause_eq_ok {clause : Clause} (hv : atlas.clause? v = some clause) :
    Strict.clause atlas v = .ok clause := by
  rw [Strict.clause, hv]

theorem clause_eq_error (hv : atlas.size ≤ v) :
    Strict.clause atlas v = .error (.unknownVertex v) := by
  have hnone : atlas.clause? v = none := List.getElem?_eq_none hv
  rw [Strict.clause, hnone]

theorem mapM_clause {vs : List Nat} (hvs : ∀ v ∈ vs, v < atlas.size) :
    vs.mapM (Strict.clause atlas) = .ok (vs.filterMap atlas.clause?) := by
  induction vs with
  | nil => rfl
  | cons v vs ih =>
      obtain ⟨clause, hv⟩ := exists_clause? (hvs v List.mem_cons_self)
      rw [List.mapM_cons, clause_eq_ok hv, ok_bind,
        ih fun w hw => hvs w (List.mem_cons_of_mem v hw), List.filterMap_cons_some hv]
      rfl

theorem mapM_clause_ids (atlas : Atlas) :
    atlas.ids.mapM (Strict.clause atlas) = .ok atlas.clauses.toList := by
  have hids : ∀ v ∈ atlas.ids, v < atlas.size := fun v hv => List.mem_range.1 hv
  rw [mapM_clause hids]
  exact congrArg Except.ok (filterMap_getElem?_range atlas.clauses.toList)

theorem vertices_eq_ok {stored : List Nat} (hstored : ∀ v ∈ stored, v < atlas.size) :
    Strict.vertices atlas stored = .ok (ascending atlas.size stored) := by
  have hfound : stored.mapM (fun v => atlas.checked v v) = .ok (stored.map id) :=
    mapM_eq_ok_map fun v hv => if_pos (hstored v hv)
  rw [Strict.vertices, hfound, List.map_id]
  rfl

/-- Clauses on the map have their vertices. -/
theorem mapM_vertex {clauses : List Clause} (h : ∀ clause ∈ clauses, clause ∈ atlas.clauses) :
    clauses.mapM atlas.vertex = .ok (atlas.itinerary clauses) := by
  refine mapM_eq_ok_map ?_
  intro clause hclause
  rw [vertex, find?, Roster.position?, if_pos (h clause hclause)]

/-- A sweep has a place for every vertex. -/
theorem enter_eq_ok {before : Nat} {sweep : FlowGraph.Sweep}
    (hsize : sweep.ranks.size = atlas.size) (hv : v < atlas.size) :
    Strict.enter atlas before sweep v =
      .ok (FlowGraph.Sweep.enter atlas.isDecision before sweep v) := by
  obtain ⟨clause, hclause⟩ := exists_clause? hv
  rw [Strict.enter, Strict.clause_eq_ok hclause, ok_bind, if_pos (hsize ▸ hv)]
  simp only [FlowGraph.Sweep.enter, isDecision_of_clause? hclause]
  rfl

end Strict

namespace Resolved

variable (hresolved : Resolved atlas)

include hresolved

theorem successors_eq_ok {u : Nat} (hu : u < atlas.size) :
    Strict.successors atlas u = .ok (atlas.successors u) := by
  obtain ⟨clause, hclause⟩ := exists_clause? hu
  rw [Strict.successors, Strict.clause_eq_ok hclause, ok_bind, Strict.vertices_eq_ok]
  · rfl
  · intro w hw
    simp only [List.mem_filterMap, Option.ite_none_right_eq_some, Option.some.injEq] at hw
    obtain ⟨edge, hedge, -, rfl⟩ := hw
    exact (hresolved.edges edge.1 edge.2 hedge).2

theorem predecessors_eq_ok (hv : v < atlas.size) :
    Strict.predecessors atlas v = .ok (atlas.predecessors v) := by
  obtain ⟨clause, hclause⟩ := exists_clause? hv
  rw [Strict.predecessors, Strict.clause_eq_ok hclause, ok_bind, Strict.vertices_eq_ok]
  · rfl
  · intro u hu
    simp only [List.mem_filterMap, Option.ite_none_right_eq_some, Option.some.injEq] at hu
    obtain ⟨edge, hedge, -, rfl⟩ := hu
    exact (hresolved.edges edge.1 edge.2 hedge).1

theorem next_eq_ok : Strict.next atlas = .ok atlas.flow.next.toList :=
  mapM_eq_ok_map fun _ hu => hresolved.successors_eq_ok (List.mem_range.1 hu)

theorem edges_eq_ok : Strict.edges atlas = .ok atlas.edgeList := by
  have hparts : atlas.ids.mapM (Strict.edgesFrom atlas) =
      .ok (atlas.ids.map fun u => (atlas.successors u).map (u, ·)) := by
    refine mapM_eq_ok_map ?_
    intro u hu
    rw [Strict.edgesFrom, hresolved.successors_eq_ok (List.mem_range.1 hu)]
    rfl
  rw [Strict.edges, hparts, ok_bind, edgeList, List.flatMap_def]
  rfl

/-! ## Outcomes -/

/-- The vertex that is asked about is the only one that may be unknown. -/
theorem outcomes_eq (v : Nat) : Strict.outcomes atlas v = atlas.outcomes v := by
  rcases Nat.lt_or_ge v atlas.size with hv | hv
  · obtain ⟨clause, hclause⟩ := exists_clause? hv
    rw [Strict.outcomes, Strict.clause_eq_ok hclause, ok_bind,
      hresolved.predecessors_eq_ok hv, ok_bind, outcomes, checked, if_pos hv, outcomeIds]
    cases hbefore : atlas.predecessors v with
    | nil =>
        have hentries : Strict.vertices atlas atlas.entries.toList = .ok atlas.entryList :=
          Strict.vertices_eq_ok hresolved.entries
        simp only
        rw [hentries, ok_bind]
        refine filterM_eq_ok_filter ?_
        intro e he
        obtain ⟨opening, hopening⟩ := exists_clause? (mem_ascending.1 he).1
        rw [Strict.clause_eq_ok hopening, isDecision_of_clause? hopening, hopening, hclause]
        rfl
    | cons u rest =>
        have hparts : (u :: rest).mapM (Strict.successors atlas) =
            .ok ((u :: rest).map atlas.successors) := by
          refine mapM_eq_ok_map ?_
          intro p hp
          rw [← hbefore] at hp
          exact hresolved.successors_eq_ok (mem_predecessors.1 hp).1
        simp only
        rw [hparts, ok_bind, List.flatMap_def]
        rfl
  · rw [Strict.outcomes, Strict.clause_eq_error hv, outcomes, checked,
      if_neg (Nat.not_lt.2 hv)]
    rfl

/-! ## Ranks -/

/-- Whatever waits has a rank, and what follows it has a place. -/
theorem step_eq_ok {level : Nat} {left : List Nat} {sweep : FlowGraph.Sweep}
    (h : FlowGraph.Sweep.Consistent atlas.flow atlas.isDecision level left sweep) :
    Strict.step atlas sweep =
      .ok (FlowGraph.Sweep.step atlas.flow atlas.isDecision sweep) := by
  cases hqueue : sweep.queue with
  | nil => simp only [Strict.step, FlowGraph.Sweep.step, hqueue]
  | cons u rest =>
      obtain ⟨rank, hrank, -⟩ := h.ahead u (by rw [hqueue]; exact List.mem_cons_self)
      have hu : u < atlas.size := by
        rw [← size_flow]
        exact (h.walked u rank hrank).lt_size
      have hsize : sweep.ranks.size = atlas.size := h.size.trans (size_flow atlas)
      rw [FlowGraph.Sweep.step_of_queue hqueue hrank, successors_flow hu]
      simp only [Strict.step, hqueue, hrank]
      rw [hresolved.successors_eq_ok hu, ok_bind]
      refine foldlM_eq_ok_foldl (P := fun sweep => sweep.ranks.size = atlas.size) hsize ?_
      intro before hbefore w hw
      refine ⟨Strict.enter_eq_ok hbefore (mem_successors.1 hw).1, ?_⟩
      rw [FlowGraph.Sweep.size_ranks_enter, hbefore]

/-- **The sweep**, every step of it. -/
theorem sweep_eq_ok (count : Nat) :
    Strict.sweep atlas count =
      .ok (FlowGraph.Sweep.after atlas.flow atlas.isDecision count) := by
  induction count with
  | zero =>
      rw [Strict.sweep, FlowGraph.Sweep.after, FlowGraph.Sweep.start, size_flow, origin?]
      by_cases hpos : 0 < atlas.size
      · rw [if_pos hpos, if_pos (show atlas.flow.root < atlas.size from hpos)]
        exact Strict.enter_eq_ok Array.size_replicate hpos
      · rw [if_neg hpos, if_neg (show ¬atlas.flow.root < atlas.size from hpos)]
  | succ count ih =>
      obtain ⟨level, left, hsettled, -⟩ :=
        FlowGraph.Sweep.settled_after atlas.flow atlas.isDecision count
      rw [Strict.sweep, ih, ok_bind]
      exact hresolved.step_eq_ok hsettled.toConsistent

/-- The sweep is over after as many steps as there are vertices. -/
theorem exists_sweep_done :
    ∃ finished, Strict.sweep atlas atlas.size = .ok finished ∧ finished.queue = [] := by
  obtain ⟨-, -, -, hdone⟩ :=
    FlowGraph.Sweep.exists_settled_done atlas.flow atlas.isDecision
  rw [size_flow] at hdone
  exact ⟨_, hresolved.sweep_eq_ok atlas.size, hdone⟩

theorem ranking_eq_ok : Strict.ranking atlas = .ok atlas.ranking := by
  have hranks : (FlowGraph.Sweep.after atlas.flow atlas.isDecision atlas.size).ranks =
      atlas.flow.ranks atlas.isDecision := by
    rw [FlowGraph.ranks, size_flow]
  have hranked : atlas.decisions.mapM
      (Strict.ranked (FlowGraph.Sweep.after atlas.flow atlas.isDecision atlas.size)) =
        .ok (atlas.decisions.map fun v =>
          (atlas.flow.ranks atlas.isDecision)[v]?.join.map (v, ·)) := by
    refine mapM_eq_ok_map ?_
    intro v hv
    obtain ⟨level, left, hsettled, -⟩ :=
      FlowGraph.Sweep.settled_after atlas.flow atlas.isDecision atlas.size
    have hlt : v < (atlas.flow.ranks atlas.isDecision).size := by
      rw [← hranks, hsettled.size, size_flow]
      exact lt_size_of_isDecision (mem_decisions.1 hv)
    rw [Strict.ranked, hranks, Array.getElem?_eq_getElem hlt]
    rfl
  rw [Strict.ranking, hresolved.sweep_eq_ok, ok_bind, hranked, ok_bind, List.filterMap_map]
  rfl

theorem layer_eq_ok (rank : Nat) : Strict.layer atlas rank = .ok (atlas.layer rank) := by
  rw [Strict.layer, hresolved.ranking_eq_ok]
  rfl

theorem openLayer_eq_ok (rank : Nat) :
    Strict.openLayer atlas rank = .ok (atlas.openLayer rank) := by
  rw [Strict.openLayer, hresolved.layer_eq_ok]
  rfl

/-! ## Queries -/

theorem ancestors_eq_ok {path : Path} (hpath : path ∈ atlas.records.paths)
    (target limit : Nat) :
    Strict.ancestors atlas target path limit = .ok (atlas.ancestors target path limit) := by
  have hreverse : ∀ clause ∈ path.reverse, clause ∈ atlas.clauses :=
    fun clause hclause => hresolved.paths path hpath clause (List.mem_reverse.1 hclause)
  rw [Strict.ancestors, Strict.mapM_vertex hreverse, ok_bind, itinerary, List.map_reverse,
    ancestors]
  rfl

omit hresolved in
/-- What is on record at a vertex is on record. -/
theorem mem_paths_of_mem_recordsAt {target : Nat} {entry : Path × Trace}
    (hentry : entry ∈ (atlas.recordsAt target).entries) :
    entry.1 ∈ atlas.records.paths := by
  rw [recordsAt] at hentry
  cases htarget : atlas.clause? target with
  | none =>
      rw [htarget] at hentry
      exact absurd hentry List.not_mem_nil
  | some clause =>
      rw [htarget] at hentry
      exact List.mem_map_of_mem (List.mem_filter.1 hentry).1

/-- **Queries**, about any vertex and of any size. -/
theorem queries_eq_ok (target limit : Nat) :
    Strict.queries atlas target limit = .ok (atlas.queries target limit) := by
  refine mapM_eq_ok_map ?_
  intro entry hentry
  rw [hresolved.ancestors_eq_ok (mem_paths_of_mem_recordsAt hentry)]
  rfl

/-- An ancestor comes from the path, so it has a clause. -/
theorem lt_size_of_mem_ancestors {path : Path} (hpath : path ∈ atlas.records.paths)
    {target limit : Nat} (hv : v ∈ atlas.ancestors target path limit) :
    v < atlas.size := by
  have hrelevant := Roster.mem_ofList.1 (Roster.mem_toList.1 (List.mem_of_mem_take hv))
  obtain ⟨clause, hclause, rfl⟩ :=
    List.mem_map.1 (List.mem_reverse.1 (List.mem_filter.1 hrelevant).1)
  exact lt_size_of_clause?
    (clause?_eq_some_iff.2 ⟨hresolved.paths path hpath clause hclause, rfl⟩)

theorem conditions_eq_ok {target limit : Nat} {query : Query}
    (hquery : query ∈ atlas.queries target limit) :
    Strict.conditions atlas query = .ok (atlas.conditions query) := by
  obtain ⟨-, hancestors, hentry⟩ := mem_queries_iff.1 hquery
  refine Strict.mapM_clause ?_
  intro v hv
  rw [hancestors] at hv
  exact hresolved.lt_size_of_mem_ancestors (mem_paths_of_mem_recordsAt hentry) hv

/-! ## Summaries and drawings -/

theorem decisionSummary_eq (hv : v < atlas.size) (clause : Clause) :
    Strict.decisionSummary atlas v clause = atlas.decisionSummary v clause := by
  rw [Strict.decisionSummary, hresolved.outcomes_eq, hresolved.ranking_eq_ok, outcomes,
    checked, if_pos hv, ok_bind]
  rfl

/-- The vertex that a summary is asked of is the only one that may be unknown. -/
theorem summary_eq (v : Nat) : Strict.summary atlas v = atlas.vertexSummary v := by
  rcases Nat.lt_or_ge v atlas.size with hv | hv
  · obtain ⟨clause, hclause⟩ := exists_clause? hv
    rw [Strict.summary, Strict.clause_eq_ok hclause, ok_bind,
      hresolved.decisionSummary_eq hv, hresolved.predecessors_eq_ok hv,
      hresolved.successors_eq_ok hv, vertexSummary, hclause]
    rfl
  · have hnone : atlas.clause? v = none := List.getElem?_eq_none hv
    rw [Strict.summary, Strict.clause_eq_error hv, vertexSummary, hnone]
    rfl

/-- A vertex has a summary: its clause has a well-formed number of outcomes. -/
theorem exists_vertexSummary (hv : v < atlas.size) :
    ∃ summary, atlas.vertexSummary v = .ok summary := by
  obtain ⟨clause, hclause⟩ := exists_clause? hv
  simp only [vertexSummary, hclause]
  cases hkind : clause.isDecision with
  | false => exact ⟨_, rfl⟩
  | true =>
      obtain ⟨count, hcount⟩ :=
        hresolved.thresholds clause (clause?_eq_some_iff.1 hclause).1 hkind
      simp only [decisionSummary, hcount]
      exact ⟨_, rfl⟩

theorem drawing_eq_ok (style : DrawingStyle) :
    Strict.drawing atlas style = .ok (atlas.drawing style) := by
  rw [Strict.drawing, hresolved.ranking_eq_ok, Strict.mapM_clause_ids,
    hresolved.edges_eq_ok, drawing]
  cases style.showRanks <;> rfl

end Resolved

/-! ## Requests that are refused -/

theorem outcomes_eq_error_iff {fault : Fault} :
    atlas.outcomes v = .error fault ↔ atlas.size ≤ v ∧ fault = .unknownVertex v := by
  rw [outcomes, checked]
  split
  · next hv => simp [Nat.not_le.2 hv]
  · next hv => simp [Nat.not_lt.1 hv, eq_comm]

/-- The outcomes are counted if they are known. -/
theorem outcomeCount_eq_error_iff {fault : Fault} :
    atlas.outcomeCount v = .error fault ↔ atlas.size ≤ v ∧ fault = .unknownVertex v := by
  rw [← outcomes_eq_error_iff, outcomeCount]
  cases atlas.outcomes v with
  | error other => simp [bind, Except.bind]
  | ok ids => simp [ok_bind, pure, Except.pure]

theorem vertexSummary_eq_error_iff (hresolved : Resolved atlas) {fault : Fault} :
    atlas.vertexSummary v = .error fault ↔
      atlas.size ≤ v ∧ fault = .unknownVertex v := by
  rcases Nat.lt_or_ge v atlas.size with hv | hv
  · obtain ⟨summary, hsummary⟩ := hresolved.exists_vertexSummary hv
    simp [hsummary, Nat.not_le.2 hv]
  · rw [← hresolved.summary_eq, Strict.summary, Strict.clause_eq_error hv, error_bind]
    simp [hv, eq_comm]

/-- What is to be closed has to be a decision, and then one that was observed. -/
theorem close_eq_error_iff (h : (empty settings).replay events = .ok atlas)
    {clause : Clause} {fault : Fault} :
    atlas.close clause = .error fault ↔
      clause.isDecision = false ∧ fault = .notDecision clause ∨
        clause.isDecision = true ∧ ¬Observes events clause ∧
          fault = .neverObserved clause := by
  rw [close_eq_bind, decisionVertex, vertex, find?, Roster.position?, ← mem_clauses_iff h]
  cases clause.isDecision with
  | false => simp [error_bind, eq_comm]
  | true =>
      by_cases hclause : clause ∈ atlas.clauses
      · simp [hclause, ok_bind]
      · simp [hclause, error_bind, eq_comm]

/-- **A refused closing changes nothing**: the vertex is looked up before anything is
changed. -/
theorem run_closeInPlace (atlas : Atlas) (clause : Clause) :
    (closeInPlace clause).run.run atlas = match atlas.close clause with
      | .ok later => (.ok (), later)
      | .error fault => (.error fault, atlas) := by
  have hopen : (closeInPlace clause).run.run atlas =
      (MonadExcept.ofExcept (atlas.decisionVertex clause) >>= fun v =>
        modify fun atlas => { atlas with closed := atlas.closed.add v } :
          ExceptT Fault (StateM Atlas) Unit).run.run atlas := rfl
  rw [hopen, close_eq_bind]
  cases atlas.decisionVertex clause <;> rfl

/-! ## All requests -/

/-- The questions that are answered whatever is asked, with every reference looked
up: about all vertices and ranks, and queries of any size. -/
structure AnswersAll (atlas : Atlas) : Prop where
  queries : ∀ target limit,
    Strict.queries atlas target limit = .ok (atlas.queries target limit)
  standardQueries : ∀ target, Strict.queries atlas target atlas.settings.ancestorLimit =
    .ok (atlas.standardQueries target)
  conditions : ∀ target limit, ∀ query ∈ atlas.queries target limit,
    Strict.conditions atlas query = .ok (atlas.conditions query)
  next : Strict.next atlas = .ok atlas.flow.next.toList
  dominates : ∀ a b, atlas.dominates a b = true → a < atlas.size ∧ b < atlas.size
  immediateDominator : ∀ v d, atlas.immediateDominator? v = some d →
    v < atlas.size ∧ d < atlas.size
  swept : ∃ finished, Strict.sweep atlas atlas.size = .ok finished ∧ finished.queue = []
  ranking : Strict.ranking atlas = .ok atlas.ranking
  layer : ∀ rank, Strict.layer atlas rank = .ok (atlas.layer rank)
  openLayer : ∀ rank, Strict.openLayer atlas rank = .ok (atlas.openLayer rank)
  extent : Strict.extent atlas = .ok atlas.extent
  listing : ∃ lines, Strict.listing atlas = .ok lines ∧ atlas.listing = .ok lines
  drawing : ∀ style, Strict.drawing atlas style = .ok (atlas.drawing style)

/-- The questions about one vertex, with every other reference looked up: they are
refused exactly if the vertex is unknown. -/
structure AnswersAbout (atlas : Atlas) (v : Nat) : Prop where
  outcomes : Strict.outcomes atlas v = atlas.outcomes v
  summary : Strict.summary atlas v = atlas.vertexSummary v
  outcomes_refused : ∀ fault, atlas.outcomes v = .error fault ↔
    atlas.size ≤ v ∧ fault = .unknownVertex v
  outcomeCount_refused : ∀ fault, atlas.outcomeCount v = .error fault ↔
    atlas.size ≤ v ∧ fault = .unknownVertex v
  summary_refused : ∀ fault, atlas.vertexSummary v = .error fault ↔
    atlas.size ≤ v ∧ fault = .unknownVertex v

theorem dominates_lt_size {a b : Nat} (hdominates : atlas.dominates a b = true) :
    a < atlas.size ∧ b < atlas.size := by
  obtain ⟨⟨back, hroute⟩, hpasses⟩ := dominates_eq_true_iff.1 hdominates
  exact ⟨hroute.lt_size_of_mem (hpasses back hroute), hroute.lt_size⟩

theorem immediateDominator?_lt_size {d : Nat}
    (hclosest : atlas.immediateDominator? v = some d) :
    v < atlas.size ∧ d < atlas.size := by
  have hmem : d ∈ atlas.dominators v := List.mem_of_getElem? hclosest
  exact (dominates_lt_size (List.contains_iff_mem.2 hmem)).symm

theorem extent_eq_ok (h : (empty settings).replay events = .ok atlas) :
    Strict.extent atlas = .ok atlas.extent := by
  rw [Strict.extent, (resolved_replay h).edges_eq_ok, ok_bind, length_edgeList h]
  rfl

theorem exists_listing (h : (empty settings).replay events = .ok atlas) :
    ∃ lines, Strict.listing atlas = .ok lines ∧ atlas.listing = .ok lines := by
  have hresolved := resolved_replay h
  obtain ⟨summaries, hsummaries⟩ := exists_mapM_eq_ok fun v (hv : v ∈ atlas.ids) =>
    hresolved.exists_vertexSummary (List.mem_range.1 hv)
  have hstrict : atlas.ids.mapM (Strict.summary atlas) = .ok summaries := by
    rw [funext hresolved.summary_eq]
    exact hsummaries
  rw [Strict.listing, extent_eq_ok h, ok_bind, hstrict, listing, hsummaries]
  exact ⟨_, rfl, rfl⟩

/-- **All requests are safe**, whatever happened to an atlas before.  The questions
that name no vertex, or may name any, are answered without a reference that leads
nowhere.  The others are refused exactly if the vertex is unknown.  Every decision
on the map has a well-formed number of outcomes.  And a clause can be closed unless
it is no decision or was never observed; in that case nothing changes. -/
theorem requests_safe (h : (empty settings).replay events = .ok atlas) :
    AnswersAll atlas ∧
    (∀ v, AnswersAbout atlas v) ∧
    (∀ v clause, atlas.clause? v = some clause → clause.isDecision = true →
      ∃ count, clause.threshold = .ok count) ∧
    ∀ clause,
      ((∃ fault, atlas.close clause = .error fault) ↔
        clause.isDecision = false ∨ ¬Observes events clause) ∧
      (∀ fault, atlas.close clause = .error fault →
        (closeInPlace clause).run.run atlas = (.error fault, atlas)) ∧
      ∀ later, atlas.close clause = .ok later →
        (closeInPlace clause).run.run atlas = (.ok (), later) := by
  have hresolved := resolved_replay h
  refine ⟨?_, ?_, ?_, ?_⟩
  · exact
      { queries := hresolved.queries_eq_ok
        standardQueries := fun target => hresolved.queries_eq_ok target _
        conditions := fun _ _ _ hquery => hresolved.conditions_eq_ok hquery
        next := hresolved.next_eq_ok
        dominates := fun _ _ hdominates => dominates_lt_size hdominates
        immediateDominator := fun _ _ hclosest => immediateDominator?_lt_size hclosest
        swept := hresolved.exists_sweep_done
        ranking := hresolved.ranking_eq_ok
        layer := hresolved.layer_eq_ok
        openLayer := hresolved.openLayer_eq_ok
        extent := extent_eq_ok h
        listing := exists_listing h
        drawing := hresolved.drawing_eq_ok }
  · intro v
    exact
      { outcomes := hresolved.outcomes_eq v
        summary := hresolved.summary_eq v
        outcomes_refused := fun _ => outcomes_eq_error_iff
        outcomeCount_refused := fun _ => outcomeCount_eq_error_iff
        summary_refused := fun _ => vertexSummary_eq_error_iff hresolved }
  · intro v clause hv hkind
    exact hresolved.thresholds clause (clause?_eq_some_iff.1 hv).1 hkind
  · intro clause
    refine ⟨?_, ?_, ?_⟩
    · simp only [close_eq_error_iff h]
      cases clause.isDecision <;> simp
    · intro fault hfault
      rw [run_closeInPlace, hfault]
    · intro later hlater
      rw [run_closeInPlace, hlater]

end

/-- Two runs arrive by different ways.  The query about the arrival names the way that
was taken, there is no seventh vertex to ask about, and the meeting of the ways is no
decision to be closed. -/
theorem requests_safe_journeys :
    ∃ atlas query, (empty {}).replay journeys = .ok atlas ∧ query ∈ atlas.queries 4 3 ∧
      Strict.conditions atlas query = .ok [fork true] ∧
      atlas.vertexSummary 6 = .error (.unknownVertex 6) ∧
      ∃ fault, atlas.close (.effect 3 "meet") = .error fault ∧
        (closeInPlace (.effect 3 "meet")).run.run atlas = (.error fault, atlas) := by
  have hvalue : ((empty {}).replay journeys).map (fun atlas =>
      (atlas.size, (atlas.queries 4 3).head?, atlas.clause? 2)) =
        .ok (6, some ⟨4, [2], journey true, [ready, fork true, arrival]⟩,
          some (fork true)) := by
    cbv
  obtain ⟨atlas, h, hvalue⟩ := exists_of_map_eq_ok hvalue
  simp only [Prod.mk.injEq] at hvalue
  obtain ⟨hsize, hhead, hway⟩ := hvalue
  have hquery := List.mem_of_head? hhead
  obtain ⟨hall, habout, -, hclose⟩ := requests_safe h
  obtain ⟨hrefused, hunchanged, -⟩ := hclose (.effect 3 "meet")
  obtain ⟨fault, hfault⟩ := hrefused.2 (Or.inl rfl)
  refine ⟨atlas, _, h, hquery, ?_, ?_, fault, hfault, hunchanged fault hfault⟩
  · rw [hall.conditions 4 3 _ hquery, conditions, List.filterMap_cons_some hway,
      List.filterMap_nil]
  · exact ((habout 6).summary_refused _).2 ⟨Nat.le_of_eq hsize, rfl⟩

end Atlas

end Concolic
