import Concolic.Proofs.Outcomes
import Concolic.Tour.Program

/-!
# Which decisions are closed

A run closes a decision when it has the decision judged and exactly as many
outcomes are there as the decision needs.  This says two things about a history.
A decision that is closed, and that nobody closed from outside, had exactly that
many outcomes at some moment.  And a decision that has that many outcomes now is
closed, unless the last run that changed its outcomes did not have it judged.

Outcomes are whatever followed a predecessor, effects and other decisions
included.  So a decision can be closed although fewer outcomes of its own were
observed than it has, and an effect can complete a decision that nothing judges.

## Main results

* `Atlas.closed_of_observed`: what closed a decision, said of the history.
* `Atlas.closed_unless_overlooked`: what leaves a complete decision open.
-/

namespace Concolic

/-- At least `n` distinct decisions at a location were observed. -/
def ObservesOutcomes (events : List Event) (location : Location) (n : Nat) : Prop :=
  ∃ seen : List Clause, seen.Nodup ∧ n ≤ seen.length ∧
    ∀ c ∈ seen, c.isDecision = true ∧ c.location = location ∧ Observes events c

/-- Where nothing but decisions at its location follows what a decision
follows, its outcomes are distinct decisions at that location. -/
theorem observesOutcomes_of_outcomesOf {earlier later : List Event} {clause : Clause}
    {seen : List Clause} (hnodup : seen.Nodup)
    (hseen : ∀ c ∈ seen, c ∈ outcomesOf earlier clause)
    (hown : ∀ before c, Follows (earlier ++ later) before clause →
      Follows (earlier ++ later) before c →
        c.isDecision = true ∧ c.location = clause.location) :
    ObservesOutcomes (earlier ++ later) clause.location seen.length := by
  refine ⟨seen, hnodup, Nat.le_refl _, ?_⟩
  intro c hc
  rcases hseen c hc with ⟨before, hclause, hfollows⟩ | ⟨-, hopens, hkind, hlocation⟩
  · have hfollows := hfollows.append later
    obtain ⟨hkind, hlocation⟩ := hown before c (hclause.append later) hfollows
    exact ⟨hkind, hlocation, hfollows.observes.2⟩
  · exact ⟨hkind, hlocation, (hopens.append later).observes⟩

namespace Atlas

section

variable {settings : Settings} {events : List Event} {atlas : Atlas}

/-! ## What closed a decision -/

theorem isClosed_iff {v : Nat} : atlas.isClosed v = true ↔ v ∈ atlas.closed :=
  decide_eq_true_iff

/-- A vertex keeps its clause for good. -/
theorem clause?_append {more : List Event} {later : Atlas}
    (h : (empty settings).replay events = .ok atlas)
    (hlater : (empty settings).replay (events ++ more) = .ok later)
    {v : Nat} {clause : Clause} (hv : atlas.clause? v = some clause) :
    later.clause? v = some clause := by
  have hclauses : later.clauses = atlas.clauses.addAll (runs more).flatten := by
    rw [clauses_replay hlater, clauses_replay h, runs_append, List.flatten_append,
      Roster.ofList, Roster.ofList, Roster.addAll_append]
  rw [clause?, hclauses, Roster.get?_addAll_iff (clause?_eq_some_iff.1 hv).1]
  exact hv

/-- If no decision was closed from outside, then a closed decision was complete
at some moment. -/
theorem exists_complete_of_closed (h : (empty settings).replay events = .ok atlas)
    (hruns : ∀ event ∈ events, ∃ trace, event = .run trace) {v : Nat}
    (hv : v ∈ atlas.closed) :
    ∃ earlier later, events = earlier ++ later ∧ ∃ moment,
      (empty settings).replay earlier = .ok moment ∧ moment.isDecision v = true ∧
        moment.isComplete v = .ok true := by
  revert hruns hv
  refine replay_induction (P := fun events atlas =>
    (∀ event ∈ events, ∃ trace, event = .run trace) → v ∈ atlas.closed →
      ∃ earlier later, events = earlier ++ later ∧ ∃ moment,
        (empty settings).replay earlier = .ok moment ∧ moment.isDecision v = true ∧
          moment.isComplete v = .ok true) ?_ ?_ ?_ h
  · intro _ hv
    exact absurd hv (Roster.not_mem_empty v)
  · intro events atlas trace next _ ih hnext hgrows hruns hv
    rcases (hgrows.closed v).1 hv with hold | ⟨hdue, hcomplete⟩
    · have hbefore : ∀ event ∈ events, ∃ trace, event = .run trace :=
        fun event hevent => hruns event (List.mem_append_left _ hevent)
      obtain ⟨earlier, later, rfl, hmoment⟩ := ih hbefore hold
      exact ⟨earlier, later ++ [.run trace], List.append_assoc _ _ _, hmoment⟩
    · exact ⟨events ++ [.run trace], [], (List.append_nil _).symm, next, hnext,
        hdue.1, hcomplete⟩
  · intro events atlas clause w _ _ _ _ hruns
    obtain ⟨trace, htrace⟩ := hruns (.close clause) (by simp)
    cases htrace

/-- The clauses of the outcomes of a decision. -/
theorem exists_outcomes (h : (empty settings).replay events = .ok atlas)
    {v : Nat} {clause : Clause} (hv : atlas.clause? v = some clause) :
    ∃ seen : List Clause, seen.Nodup ∧ seen.length = (atlas.outcomeIds v).length ∧
      ∀ c, c ∈ seen ↔ c ∈ outcomesOf events clause := by
  refine ⟨(atlas.outcomeIds v).filterMap atlas.clause?,
    nodup_filterMap_clause? ((pairwise_outcomeIds atlas v).imp Nat.ne_of_lt),
    length_filterMap_clause? fun s hs => lt_size_of_mem_outcomeIds hs, ?_⟩
  intro c
  rw [List.mem_filterMap]
  constructor
  · intro hc
    obtain ⟨s, hs, hsc⟩ := hc
    exact (mem_outcomeIds_iff h hv hsc).1 hs
  · intro hc
    have hsc := clause?_position h (observes_of_mem_outcomesOf hc)
    exact ⟨_, (mem_outcomeIds_iff h hv hsc).2 hc, hsc⟩

/-- **What closed a decision.**  In a history of runs alone, a decision that is
closed needs some number of outcomes, and at some moment it had exactly that
many, its own clause among them.  What its outcomes were at that moment depends
on whether it had a predecessor then: if it had, whatever followed something that
it followed too, and if not, the decisions at its location that opened a run.
Where only decisions at its location ever follow what it follows, that many
distinct decisions were observed there. -/
theorem closed_of_observed (h : (empty settings).replay events = .ok atlas)
    (hruns : ∀ event ∈ events, ∃ trace, event = .run trace) {v : Nat}
    (hv : atlas.isClosed v = true) :
    ∃ clause n, atlas.clause? v = some clause ∧ clause.isDecision = true ∧
      clause.threshold = .ok (some n) ∧
      (∃ earlier later moment, events = earlier ++ later ∧
        (empty settings).replay earlier = .ok moment ∧ moment.outcomeCount v = .ok n ∧
        ∃ seen : List Clause, seen.Nodup ∧ seen.length = n ∧ clause ∈ seen ∧
          ∀ c, c ∈ seen ↔ c ∈ outcomesOf earlier clause) ∧
      ((∀ before c, Follows events before clause → Follows events before c →
        c.isDecision = true ∧ c.location = clause.location) →
          ObservesOutcomes events clause.location n) := by
  obtain ⟨earlier, later, rfl, moment, hmoment, hdecision, hcomplete⟩ :=
    exists_complete_of_closed h hruns (isClosed_iff.1 hv)
  obtain ⟨clause, n, hclause, hthreshold, hlength⟩ := isComplete_iff.1 hcomplete
  have hkind : clause.isDecision = true := by
    rw [← isDecision_of_clause? hclause]
    exact hdecision
  have hcount : moment.outcomeCount v = .ok n :=
    outcomeCount_eq_ok_iff.2 ⟨lt_size_of_clause? hclause, hlength⟩
  obtain ⟨seen, hnodup, hseen, hmem⟩ := exists_outcomes hmoment hclause
  have hseenLength : seen.length = n := hseen.trans hlength
  have hself : clause ∈ seen :=
    (hmem clause).2 ((mem_outcomeIds_iff hmoment hclause hclause).1
      (self_mem_outcomeIds hmoment hdecision))
  refine ⟨clause, n, clause?_append hmoment h hclause, hkind, hthreshold, ?_, ?_⟩
  · exact ⟨earlier, later, moment, rfl, hmoment, hcount, seen, hnodup, hseenLength,
      hself, hmem⟩
  · intro hown
    rw [← hseenLength]
    exact observesOutcomes_of_outcomesOf hnodup (fun c hc => (hmem c).1 hc) hown

end

/-- A run of the sample program up to its first decision. -/
def decidingRun (holds : Bool) : Trace :=
  [.effect 0 "x, y = input()", Tour.comparison holds]

/-- A run that returns without any decision. -/
def returningRun : Trace :=
  [.effect 0 "x, y = input()", .effect 6 "return"]

/-- Both ways out of the first decision were taken. -/
def bothWays : List Event :=
  [.run (decidingRun true), .run (decidingRun false)]

theorem closed_of_observed_both_ways :
    ∃ atlas, (empty {}).replay bothWays = .ok atlas ∧ atlas.isClosed 1 = true ∧
      ∃ clause n, atlas.clause? 1 = some clause ∧ clause.threshold = .ok (some n) ∧
        ObservesOutcomes bothWays clause.location n := by
  have hvalue : ((empty {}).replay bothWays).map
      (fun atlas => (atlas.isClosed 1, atlas.clause? 1)) =
        .ok (true, some (Tour.comparison true)) := by
    rfl
  obtain ⟨atlas, h, hvalue⟩ := exists_of_map_eq_ok hvalue
  obtain ⟨hclosed, hclause⟩ := Prod.mk.inj hvalue
  have hruns : ∀ event ∈ bothWays, ∃ trace, event = .run trace := by
    simp [bothWays]
  obtain ⟨clause, n, hv, -, hthreshold, -, hown⟩ :=
    closed_of_observed h hruns hclosed
  have heq : clause = Tour.comparison true := Option.some.inj (hv.symm.trans hclause)
  refine ⟨atlas, h, hclosed, clause, n, hv, hthreshold, hown ?_⟩
  intro before c _ hc
  rw [heq]
  simp only [Follows, ← mem_zip_tail_iff] at hc
  simp only [bothWays, runs, Event.trace?, decidingRun, List.filterMap_cons,
    List.filterMap_nil, List.mem_cons, List.not_mem_nil, or_false, exists_eq_or_imp,
    exists_eq_left, List.tail_cons, List.zip_cons_cons, List.zip_nil_right,
    Prod.mk.injEq] at hc
  rcases hc with ⟨-, rfl⟩ | ⟨-, rfl⟩
  · exact ⟨rfl, rfl⟩
  · exact ⟨rfl, rfl⟩

/-- What follows the input may be a return as well: one outcome of the decision
was observed, and the decision is closed. -/
theorem not_forall_closed_observed :
    ¬∀ settings events atlas v, (empty settings).replay events = .ok atlas →
      (∀ event ∈ events, ∃ trace, event = .run trace) →
        atlas.isDecision v = true → atlas.isClosed v = true →
          ∃ clause n, atlas.clause? v = some clause ∧ clause.threshold = .ok (some n) ∧
            ObservesOutcomes events clause.location n := by
  intro hall
  have hvalue : ((empty {}).replay [.run returningRun, .run (decidingRun true)]).map
      (fun atlas => (atlas.isDecision 2, atlas.isClosed 2, atlas.clause? 2)) =
        .ok (true, true, some (Tour.comparison true)) := by
    rfl
  obtain ⟨atlas, h, hvalue⟩ := exists_of_map_eq_ok hvalue
  obtain ⟨hdecision, hvalue⟩ := Prod.mk.inj hvalue
  obtain ⟨hclosed, hclause⟩ := Prod.mk.inj hvalue
  obtain ⟨clause, n, hv, hthreshold, seen, hnodup, hlength, hseen⟩ :=
    hall {} _ atlas 2 h (by simp) hdecision hclosed
  have heq : clause = Tour.comparison true := Option.some.inj (hv.symm.trans hclause)
  have hn : n = 2 := by
    rw [heq] at hthreshold
    exact (Option.some.inj (Except.ok.inj hthreshold)).symm
  -- the comparison is the only decision of the two runs
  have hsubset : seen ⊆ [Tour.comparison true] := by
    intro c hc
    obtain ⟨hkind, -, trace, htrace, hmem⟩ := hseen c hc
    have hmem : c ∈ returningRun ++ decidingRun true := by
      simp only [runs, Event.trace?, List.filterMap_cons, List.filterMap_nil,
        List.mem_cons, List.not_mem_nil, or_false] at htrace
      rcases htrace with rfl | rfl
      · exact List.mem_append_left _ hmem
      · exact List.mem_append_right _ hmem
    have honly : ∀ c ∈ returningRun ++ decidingRun true,
        c.isDecision = true → c = Tour.comparison true := by
      decide
    exact List.mem_singleton.2 (honly c hmem hkind)
  have hle : seen.length ≤ 1 := hnodup.length_le_of_subset hsubset
  omega

/-! ## What leaves a decision open -/

/-- The run from `before` to `after` added outcomes to the decision at `v`
without having it judged: it did not visit `v`, and each outcome that it added
is an effect, or an entry with predecessors while `v` has none. -/
structure Overlooks (before : Atlas) (trace : Trace) (after : Atlas)
    (v : Nat) : Prop where
  unvisited : ∀ clause ∈ trace, after.clause? v ≠ some clause
  added : ∃ s ∈ after.outcomeIds v, s ∉ before.outcomeIds v
  unjudged : ∀ s ∈ after.outcomeIds v, s ∉ before.outcomeIds v →
    after.isDecision s = false ∨ after.predecessors v = [] ∧ after.predecessors s ≠ []

/-- The last run that changed the outcomes of `v` overlooked `v`. -/
def LastOverlooked (settings : Settings) (events : List Event) (v : Nat) : Prop :=
  ∃ earlier trace later before after, events = earlier ++ .run trace :: later ∧
    (empty settings).replay earlier = .ok before ∧
    (empty settings).replay (earlier ++ [.run trace]) = .ok after ∧
    Overlooks before trace after v ∧
    ∀ more moment, more <+: later →
      (empty settings).replay (earlier ++ .run trace :: more) = .ok moment →
        moment.outcomeIds v = after.outcomeIds v

section

variable {settings : Settings} {events : List Event} {atlas next : Atlas} {v : Nat}

/-- A run that overlooks a decision is the last one to change its outcomes. -/
theorem Overlooks.lastOverlooked {trace : Trace} (h : Overlooks atlas trace next v)
    (hatlas : (empty settings).replay events = .ok atlas)
    (hnext : (empty settings).replay (events ++ [.run trace]) = .ok next) :
    LastOverlooked settings (events ++ [.run trace]) v := by
  refine ⟨events, trace, [], atlas, next, rfl, hatlas, hnext, h, ?_⟩
  intro more moment hmore hmoment
  rw [List.prefix_nil.1 hmore, hnext] at hmoment
  rw [Except.ok.inj hmoment]

/-- An event that leaves the outcomes of `v` as they are does not count. -/
theorem LastOverlooked.append (h : LastOverlooked settings events v)
    (hatlas : (empty settings).replay events = .ok atlas) {event : Event}
    (hnext : (empty settings).replay (events ++ [event]) = .ok next)
    (hsame : next.outcomeIds v = atlas.outcomeIds v) :
    LastOverlooked settings (events ++ [event]) v := by
  rcases h with
    ⟨earlier, trace, later, before, after, rfl, hbefore, hafter, hoverlooks, hkept⟩
  refine ⟨earlier, trace, later ++ [event], before, after, List.append_assoc _ _ _,
    hbefore, hafter, hoverlooks, ?_⟩
  intro more moment hmore hmoment
  rcases List.prefix_concat_iff.1 hmore with rfl | hmore
  · have hwhole : earlier ++ .run trace :: (later ++ [event]) =
        earlier ++ .run trace :: later ++ [event] := by
      simp
    rw [hwhole, hnext] at hmoment
    rw [← Except.ok.inj hmoment, hsame]
    exact hkept later atlas (List.prefix_refl _) hatlas
  · exact hkept more moment hmore hmoment

/-- A run that does not have a decision judged either overlooks it or leaves
its outcomes alone. -/
theorem outcomeIds_eq_or_overlooks {trace : Trace}
    (hatlas : (empty settings).replay events = .ok atlas)
    (hnext : (empty settings).replay (events ++ [.run trace]) = .ok next)
    (hgrows : Grows atlas trace next) (hdecision : next.isDecision v = true)
    (hdue : ¬next.Due trace v) :
    next.outcomeIds v = atlas.outcomeIds v ∨ Overlooks atlas trace next v := by
  obtain ⟨clause, hv, hkind⟩ := exists_clause?_of_isDecision hdecision
  have hclause : clause ∉ trace := mt (hgrows.due_of_mem hv hkind) hdue
  by_cases hadded : ∃ s ∈ next.outcomeIds v, s ∉ atlas.outcomeIds v
  · refine Or.inr { unvisited := ?_, added := hadded, unjudged := ?_ }
    · intro other hother heq
      rw [hv] at heq
      exact hclause (Option.some.inj heq ▸ hother)
    · intro s hs hnew
      by_contra hnot
      rw [not_or, Bool.not_eq_false, not_and_or, not_not] at hnot
      exact hdue
        (hgrows.due_of_new_outcome hatlas hnext hdecision hs hnew hnot.1 hnot.2)
  · have hsorted := pairwise_outcomeIds next v
    refine Or.inl (eq_of_pairwise_lt hsorted (pairwise_outcomeIds atlas v) ?_)
    intro s
    constructor
    · intro hs
      by_contra hnew
      exact hadded ⟨s, hs, hnew⟩
    · exact hgrows.mem_outcomeIds_mono hatlas hv hclause

/-- **Closed or overlooked**: every decision that is complete is closed, unless
the last run that changed its outcomes overlooked it. -/
theorem closed_or_lastOverlooked (h : (empty settings).replay events = .ok atlas)
    (hdecision : atlas.isDecision v = true)
    (hcomplete : atlas.isComplete v = .ok true) :
    v ∈ atlas.closed ∨ LastOverlooked settings events v := by
  revert hdecision hcomplete
  refine replay_induction (P := fun events atlas => atlas.isDecision v = true →
    atlas.isComplete v = .ok true → v ∈ atlas.closed ∨ LastOverlooked settings events v)
    ?_ ?_ ?_ h
  · intro hdecision
    cases hdecision
  · intro events atlas trace next hatlas ih hnext hgrows hdecision hcomplete
    by_cases hdue : next.Due trace v
    · exact Or.inl ((hgrows.closed v).2 (Or.inr ⟨hdue, hcomplete⟩))
    · rcases outcomeIds_eq_or_overlooks hatlas hnext hgrows hdecision hdue with
        hsame | hoverlooks
      · obtain ⟨clause, n, hv, hthreshold, hlength⟩ := isComplete_iff.1 hcomplete
        have hkind : clause.isDecision = true := by
          rw [← isDecision_of_clause? hv]
          exact hdecision
        have hclause : clause ∉ trace := mt (hgrows.due_of_mem hv hkind) hdue
        have hold : atlas.clause? v = some clause := hgrows.clause?_of_not_mem hv hclause
        have holdDecision : atlas.isDecision v = true := by
          rw [isDecision_of_clause? hold, hkind]
        have holdComplete : atlas.isComplete v = .ok true :=
          isComplete_iff.2 ⟨clause, n, hold, hthreshold, hsame ▸ hlength⟩
        rcases ih holdDecision holdComplete with hclosed | hlast
        · exact Or.inl ((hgrows.closed v).2 (Or.inl hclosed))
        · exact Or.inr (hlast.append hatlas hnext hsame)
      · exact Or.inr (hoverlooks.lastOverlooked hatlas hnext)
  · intro events atlas clause w hatlas ih hw hnext hdecision hcomplete
    -- closing changes neither the decisions nor their outcomes
    rcases ih hdecision hcomplete with hclosed | hlast
    · exact Or.inl (Roster.mem_add.2 (Or.inl hclosed))
    · exact Or.inr (hlast.append hatlas hnext rfl)

/-- **No complete decision is missed, if it is looked at.**  After a run, a
decision with exactly the number of outcomes that it needs is closed if the run
visited it, or another decision that has it among its outcomes.  Any such
decision is closed, unless the last run that changed its outcomes overlooked
it. -/
theorem closed_unless_overlooked {trace : Trace}
    (h : (empty settings).replay events = .ok atlas)
    (hnext : atlas.addRun trace = .ok next)
    {clause : Clause} {n : Nat} (hv : next.clause? v = some clause)
    (hkind : clause.isDecision = true) (hthreshold : clause.threshold = .ok (some n))
    (hcount : next.outcomeCount v = .ok n) :
    ((clause ∈ trace ∨ ∃ c ∈ trace, c.isDecision = true ∧
      ∃ u, next.clause? u = some c ∧ v ∈ next.outcomeIds u) → next.isClosed v = true) ∧
    (next.isClosed v = true ∨ LastOverlooked settings (events ++ [.run trace]) v) := by
  have hgrows := grows_of_addRun hnext
  have hdecision : next.isDecision v = true := by rw [isDecision_of_clause? hv, hkind]
  have hcomplete : next.isComplete v = .ok true :=
    isComplete_iff.2 ⟨clause, n, hv, hthreshold, (outcomeCount_eq_ok_iff.1 hcount).2⟩
  rw [isClosed_iff]
  constructor
  · intro hvisited
    refine (hgrows.closed v).2 (Or.inr ⟨?_, hcomplete⟩)
    rcases hvisited with hclause | ⟨c, hc, hckind, u, hu, hmem⟩
    · exact hgrows.due_of_mem hv hkind hclause
    · have hposition : next.clauses.position c = u := (hgrows.position_iff hc).2 hu
      exact ⟨hdecision, c, hc, hckind, Or.inr (hposition ▸ hmem)⟩
  · have hreplay : (empty settings).replay (events ++ [.run trace]) = .ok next :=
      replay_append_eq_ok.2 ⟨atlas, h, hnext⟩
    exact closed_or_lastOverlooked hreplay hdecision hcomplete

end

/-- The second run takes the other way, and closes the first decision without
visiting it. -/
theorem closed_unless_overlooked_other_way :
    ∃ atlas next, (empty {}).replay [.run (decidingRun true)] = .ok atlas ∧
      atlas.addRun (decidingRun false) = .ok next ∧
      next.clause? 1 = some (Tour.comparison true) ∧
      Tour.comparison true ∉ decidingRun false ∧ next.isClosed 1 = true := by
  have hvalue : ((empty {}).replay bothWays).map (fun next =>
      (next.clause? 1, next.clause? 2, next.outcomeIds 1, next.outcomeIds 2)) =
        .ok (some (Tour.comparison true), some (Tour.comparison false),
          [1, 2], [1, 2]) := by
    rfl
  obtain ⟨next, hreplay, hvalue⟩ := exists_of_map_eq_ok hvalue
  have hsplit : (empty {}).replay
      ([.run (decidingRun true)] ++ [.run (decidingRun false)]) = .ok next := hreplay
  obtain ⟨atlas, h, hnext⟩ := replay_append_eq_ok.1 hsplit
  simp only [Prod.mk.injEq] at hvalue
  rcases hvalue with ⟨hv, hother, hids, hotherIds⟩
  have hcount : next.outcomeCount 1 = .ok 2 :=
    outcomeCount_eq_ok_iff.2 ⟨lt_size_of_clause? hv, by rw [hids]; rfl⟩
  have hmem : 1 ∈ next.outcomeIds 2 := by
    rw [hotherIds]
    exact List.mem_cons_self
  refine ⟨atlas, next, h, hnext, hv, by decide, ?_⟩
  exact (closed_unless_overlooked h hnext hv rfl rfl hcount).1
    (Or.inr ⟨Tour.comparison false, by decide, rfl, 2, hother, hmem⟩)

/-- A return where the comparison was expected is a second outcome of the
comparison, and the run that brings it has no decision to judge. -/
theorem not_forall_complete_closed :
    ¬∀ settings events trace atlas next v clause n,
      (empty settings).replay events = .ok atlas → atlas.addRun trace = .ok next →
        next.clause? v = some clause → clause.isDecision = true →
          clause.threshold = .ok (some n) → next.outcomeCount v = .ok n →
            next.isClosed v = true := by
  intro hall
  have hvalue : ((empty {}).replay ([.run (decidingRun true)] ++ [.run returningRun])).map
      (fun next => (next.clause? 1, next.outcomeIds 1, next.isClosed 1)) =
        .ok (some (Tour.comparison true), [1, 2], false) := by
    rfl
  obtain ⟨next, hreplay, hvalue⟩ := exists_of_map_eq_ok hvalue
  obtain ⟨atlas, h, hnext⟩ := replay_append_eq_ok.1 hreplay
  simp only [Prod.mk.injEq] at hvalue
  rcases hvalue with ⟨hv, hids, hopen⟩
  have hcount : next.outcomeCount 1 = .ok 2 :=
    outcomeCount_eq_ok_iff.2 ⟨lt_size_of_clause? hv, by rw [hids]; rfl⟩
  have hclosed := hall {} _ returningRun atlas next 1 _ 2 h hnext hv rfl rfl hcount
  rw [hopen] at hclosed
  cases hclosed

end Atlas

end Concolic
