import Concolic.Proofs.Refusal

/-!
# How decisions came to be closed

A decision is closed because somebody closed it from outside, or because a run
found it complete.  The second kind needs the whole history: the number of
outcomes grows past the number that a decision needs, so what counts is the
moment right after a run that had the decision judged.  The decisions closed from
outside have no part in it.  They are neither outcomes nor reasons to judge, so
the history without them closes the same decisions on count.

A run is judged on its final edges, which is why the order of the judgements does
not matter either.  `review` judges one decision after the other in a given
order, each time passing over what is closed already, and ends with the decisions
that `addRun` closes at once.

## Main results

* `Atlas.mem_closed_iff`: why a decision is closed, said of the history.
* `Atlas.exists_bare_replay`: the history without the decisions closed from
  outside.
* `Atlas.review_extend`: judging in any order.
* `Atlas.closed_iff_marked_or_counted`: the three together.
-/

namespace Concolic

namespace Atlas

/-! ## Closing on count -/

/-- Right after a run, the decision at `v` closes on count: it is that of a
decision of the run or an outcome of one, and exactly as many outcomes as it
needs are there. -/
structure ClosesOnCount (moment : Atlas) (trace : Trace) (v : Nat) : Prop where
  visited : ∃ c ∈ trace, c.isDecision = true ∧ ∃ u, moment.find? c = some u ∧
    (v = u ∨ ∃ siblings, moment.outcomes u = .ok siblings ∧ v ∈ siblings)
  complete : ∃ clause n, moment.clause? v = some clause ∧ clause.isDecision = true ∧
    clause.threshold = .ok (some n) ∧ moment.outcomeCount v = .ok n

/-- Some run of a history closed the decision at `v` on count. -/
def ClosedOnCount (settings : Settings) (events : List Event) (v : Nat) : Prop :=
  ∃ earlier trace later moment, events = earlier ++ .run trace :: later ∧
    (empty settings).replay (earlier ++ [.run trace]) = .ok moment ∧
    ClosesOnCount moment trace v

section

variable {settings : Settings} {events : List Event} {atlas next : Atlas}
variable {trace : Trace} {v : Nat}

theorem outcomes_eq_ok_iff {ids : List Nat} :
    atlas.outcomes v = .ok ids ↔ v < atlas.size ∧ atlas.outcomeIds v = ids := by
  unfold outcomes checked
  split
  · next hv => simp [hv]
  · next hv => simp [hv]

/-- A run closes on count what it has judged and finds complete. -/
theorem Grows.closesOnCount_iff (hgrows : Grows atlas trace next) :
    ClosesOnCount next trace v ↔ next.Due trace v ∧ next.isComplete v = .ok true := by
  rw [Due, isComplete_iff]
  constructor
  · intro h
    obtain ⟨c, hc, hkind, u, hu, hv⟩ := h.visited
    obtain ⟨clause, n, hclause, hdecision, hthreshold, hcount⟩ := h.complete
    have hposition : next.clauses.position c = u := by
      have hfind := hgrows.find?_of_mem hc
      rw [hu] at hfind
      exact (Option.some.inj hfind).symm
    have hlength := (outcomeCount_eq_ok_iff.1 hcount).2
    refine ⟨⟨?_, c, hc, hkind, ?_⟩, clause, n, hclause, hthreshold, hlength⟩
    · rw [isDecision_of_clause? hclause, hdecision]
    · rw [hposition]
      rcases hv with hself | ⟨siblings, hsiblings, hmem⟩
      · exact Or.inl hself
      · have hids := (outcomes_eq_ok_iff.1 hsiblings).2
        exact Or.inr (hids ▸ hmem)
  · intro h
    rcases h with ⟨⟨hdecision, c, hc, hkind, hv⟩, clause, n, hclause, hthreshold, hlength⟩
    have hfind := hgrows.find?_of_mem hc
    have hsize : next.clauses.position c < next.size :=
      lt_size_of_clause? (find?_eq_some_iff.1 hfind)
    refine { visited := ⟨c, hc, hkind, _, hfind, ?_⟩, complete := ?_ }
    · rcases hv with hself | hmem
      · exact Or.inl hself
      · exact Or.inr ⟨_, outcomes_eq_ok_iff.2 ⟨hsize, rfl⟩, hmem⟩
    · have hcount : next.outcomeCount v = .ok n :=
        outcomeCount_eq_ok_iff.2 ⟨lt_size_of_clause? hclause, hlength⟩
      rw [isDecision_of_clause? hclause] at hdecision
      exact ⟨clause, n, hclause, hdecision, hthreshold, hcount⟩

theorem ClosedOnCount.append (h : ClosedOnCount settings events v) (more : List Event) :
    ClosedOnCount settings (events ++ more) v := by
  rcases h with ⟨earlier, trace, later, moment, rfl, hmoment, hcloses⟩
  exact ⟨earlier, trace, later ++ more, moment, by simp, hmoment, hcloses⟩

theorem closedOnCount_append_run
    (hnext : (empty settings).replay (events ++ [.run trace]) = .ok next) :
    ClosedOnCount settings (events ++ [.run trace]) v ↔
      ClosedOnCount settings events v ∨ ClosesOnCount next trace v := by
  constructor
  · intro h
    rcases h with ⟨earlier, other, later, moment, hevents, hmoment, hcloses⟩
    rcases append_singleton_eq_append_cons_iff.1 hevents with
      ⟨rfl, heq, rfl⟩ | ⟨between, rfl, hbefore⟩
    · cases heq
      rw [hnext] at hmoment
      cases hmoment
      exact Or.inr hcloses
    · exact Or.inl ⟨earlier, other, between, moment, hbefore, hmoment, hcloses⟩
  · intro h
    rcases h with hold | hcloses
    · exact hold.append _
    · exact ⟨events, trace, [], next, rfl, hnext, hcloses⟩

theorem closedOnCount_append_close {clause : Clause} :
    ClosedOnCount settings (events ++ [.close clause]) v ↔
      ClosedOnCount settings events v := by
  constructor
  · intro h
    rcases h with ⟨earlier, trace, later, moment, hevents, hmoment, hcloses⟩
    rcases append_singleton_eq_append_cons_iff.1 hevents with
      ⟨-, heq, -⟩ | ⟨between, rfl, hbefore⟩
    · cases heq
    · exact ⟨earlier, trace, between, moment, hbefore, hmoment, hcloses⟩
  · intro h
    exact h.append _

/-! ## Why a decision is closed -/

/-- What was closed from outside is an observed decision. -/
theorem exists_decisionVertex_of_close (h : (empty settings).replay events = .ok atlas)
    {clause : Clause} (hclose : .close clause ∈ events) :
    ∃ v, atlas.decisionVertex clause = .ok v := by
  revert hclose
  refine replay_induction (P := fun events atlas =>
    .close clause ∈ events → ∃ v, atlas.decisionVertex clause = .ok v) ?_ ?_ ?_ h
  · intro hclose
    cases hclose
  · intro events atlas trace next _ ih _ hgrows hclose
    have hold : .close clause ∈ events := by simpa using hclose
    obtain ⟨v, hv⟩ := ih hold
    obtain ⟨hkind, hclause⟩ := decisionVertex_eq_ok_iff.1 hv
    exact ⟨v, decisionVertex_eq_ok_iff.2 ⟨hkind, hgrows.clause?_of_clause? hclause⟩⟩
  · intro events atlas other w _ ih hw _ hclose
    rcases List.mem_append.1 hclose with hold | hlast
    · exact ih hold
    · cases List.mem_singleton.1 hlast
      exact ⟨w, hw⟩

/-- **Why a decision is closed**: somebody closed it from outside, or some run
closed it on count. -/
theorem mem_closed_iff (h : (empty settings).replay events = .ok atlas) :
    v ∈ atlas.closed ↔
      (∃ clause, .close clause ∈ events ∧ atlas.clause? v = some clause) ∨
        ClosedOnCount settings events v := by
  refine replay_induction (P := fun events atlas => v ∈ atlas.closed ↔
    (∃ clause, .close clause ∈ events ∧ atlas.clause? v = some clause) ∨
      ClosedOnCount settings events v) ?_ ?_ ?_ h
  · constructor
    · intro hv
      exact absurd hv (Roster.not_mem_empty v)
    · intro hreason
      rcases hreason with ⟨clause, hclose, -⟩ | ⟨earlier, _, _, _, hevents, -⟩
      · cases hclose
      · simp at hevents
  · intro events atlas trace next hatlas ih hnext hgrows
    have hmarks : (∃ clause, .close clause ∈ events ++ [.run trace] ∧
        next.clause? v = some clause) ↔
          ∃ clause, .close clause ∈ events ∧ atlas.clause? v = some clause := by
      refine exists_congr fun clause => ?_
      have hlast : .close clause ∈ events ++ [.run trace] ↔ .close clause ∈ events := by simp
      rw [hlast]
      refine and_congr_right fun hclose => ?_
      obtain ⟨w, hw⟩ := exists_decisionVertex_of_close hatlas hclose
      have hobserved := (clause?_eq_some_iff.1 (decisionVertex_eq_ok_iff.1 hw).2).1
      exact hgrows.clause?_iff hobserved
    rw [hgrows.closed, ← hgrows.closesOnCount_iff, ih, hmarks,
      closedOnCount_append_run hnext, or_assoc]
  · intro events atlas clause w hatlas ih hw hnext
    have hclause := (decisionVertex_eq_ok_iff.1 hw).2
    have hmarks : (∃ other, .close other ∈ events ++ [.close clause] ∧
        atlas.clause? v = some other) ↔
          (∃ other, .close other ∈ events ∧ atlas.clause? v = some other) ∨ v = w := by
      have hself : atlas.clause? v = some clause ↔ v = w :=
        ⟨fun hv => eq_of_clause? hv hclause, fun heq => heq ▸ hclause⟩
      simp only [List.mem_append, List.mem_singleton, Event.close.injEq, or_and_right,
        exists_or, exists_eq_left, hself]
    show v ∈ atlas.closed.add w ↔ (∃ other, .close other ∈ events ++ [.close clause] ∧
      atlas.clause? v = some other) ∨ ClosedOnCount settings (events ++ [.close clause]) v
    rw [Roster.mem_add, ih, hmarks, closedOnCount_append_close, or_right_comm]

/-- A decision that closed on count has the clause and the number of outcomes
that it needs. -/
theorem ClosedOnCount.exists_clause (h : (empty settings).replay events = .ok atlas)
    (hcount : ClosedOnCount settings events v) :
    ∃ clause n, atlas.clause? v = some clause ∧ clause.isDecision = true ∧
      clause.threshold = .ok (some n) := by
  rcases hcount with ⟨earlier, trace, later, moment, rfl, hmoment, hcloses⟩
  obtain ⟨clause, n, hclause, hkind, hthreshold, -⟩ := hcloses.complete
  have hsplit : earlier ++ .run trace :: later = earlier ++ [.run trace] ++ later := by simp
  rw [hsplit] at h
  exact ⟨clause, n, clause?_append hmoment h hclause, hkind, hthreshold⟩

/-- Only decisions are closed. -/
theorem isDecision_of_mem_closed (h : (empty settings).replay events = .ok atlas)
    (hv : v ∈ atlas.closed) : atlas.isDecision v = true := by
  rcases (mem_closed_iff h).1 hv with ⟨clause, hclose, hclause⟩ | hcount
  · obtain ⟨w, hw⟩ := exists_decisionVertex_of_close h hclose
    rw [isDecision_of_clause? hclause, (decisionVertex_eq_ok_iff.1 hw).1]
  · obtain ⟨clause, n, hclause, hkind, -⟩ := hcount.exists_clause h
    rw [isDecision_of_clause? hclause, hkind]

/-- What is closed stays closed. -/
theorem mem_closed_append (h : (empty settings).replay events = .ok atlas)
    {more : List Event} {later : Atlas}
    (hlater : (empty settings).replay (events ++ more) = .ok later)
    (hv : v ∈ atlas.closed) : v ∈ later.closed := by
  refine (mem_closed_iff hlater).2 ?_
  rcases (mem_closed_iff h).1 hv with ⟨clause, hclose, hclause⟩ | hcount
  · exact Or.inl ⟨clause, List.mem_append_left _ hclose, clause?_append h hlater hclause⟩
  · exact Or.inr (hcount.append more)

/-- A test of a runtime type is closed from outside or not at all. -/
theorem mem_closed_iff_of_isTypeCheck (h : (empty settings).replay events = .ok atlas)
    {clause : Clause} (hclause : atlas.clause? v = some clause)
    (hcheck : clause.fact.isTypeCheck = true) :
    v ∈ atlas.closed ↔ .close clause ∈ events := by
  have hnever : ¬ClosedOnCount settings events v := by
    intro hcount
    obtain ⟨other, n, hother, -, hthreshold⟩ := hcount.exists_clause h
    have heq : other = clause := Option.some.inj (hother.symm.trans hclause)
    rw [heq, Clause.threshold, if_pos hcheck] at hthreshold
    cases hthreshold
  rw [mem_closed_iff h, or_iff_left hnever, hclause]
  simp

/-! ## The history without the decisions closed from outside -/

/-- The same map with every decision open. -/
def reopened (atlas : Atlas) : Atlas :=
  { atlas with closed := ∅ }

theorem closesOnCount_reopened :
    ClosesOnCount atlas.reopened trace v ↔ ClosesOnCount atlas trace v :=
  ⟨fun h => ⟨h.visited, h.complete⟩, fun h => ⟨h.visited, h.complete⟩⟩

/-- A run that is not refused is not refused where the same runs came before, and does the
same to the map. -/
theorem addRun_of_reopened_eq (h : (empty settings).replay events = .ok atlas)
    {other : Atlas} {others : List Event}
    (hother : (empty settings).replay others = .ok other)
    (heq : other.reopened = atlas.reopened) (hrun : atlas.addRun trace = .ok next) :
    ∃ otherNext, other.addRun trace = .ok otherNext ∧
      otherNext.reopened = next.reopened := by
  have hmap : ∀ {before after : Atlas}, before.addRun trace = .ok after →
      after.reopened = (before.extend trace).reopened := by
    intro before after hafter
    have hjudges := judges_addRun before trace
    rw [hafter] at hjudges
    cases hjudges with
    | answered added tested closed => rfl
  cases hresult : other.addRun trace with
  | ok otherNext =>
      refine ⟨otherNext, rfl, ?_⟩
      rw [hmap hresult, hmap hrun]
      exact congrArg (fun map => (map.extend trace).reopened) heq
  | error fault =>
      have hkeyless := (refusedForTables_addRun hother trace).refused_iff.1 ⟨fault, hresult⟩
      obtain ⟨fault, hfault⟩ := (refusedForTables_addRun h trace).refused_iff.2 hkeyless
      cases hrun.symm.trans hfault

/-- **Without the decisions closed from outside**, a history leads to the same
map, and closes exactly what it closed on count before. -/
theorem exists_bare_replay (h : (empty settings).replay events = .ok atlas) :
    ∃ bare, (empty settings).replay ((runs events).map .run) = .ok bare ∧
      bare.reopened = atlas.reopened ∧
      ∀ v, v ∈ bare.closed ↔ ClosedOnCount settings events v := by
  refine replay_induction (P := fun events atlas => ∃ bare,
    (empty settings).replay ((runs events).map .run) = .ok bare ∧
      bare.reopened = atlas.reopened ∧
      ∀ v, v ∈ bare.closed ↔ ClosedOnCount settings events v) ?_ ?_ ?_ h
  · refine ⟨empty settings, rfl, rfl, ?_⟩
    intro v
    have hnone : (empty settings).replay [] = .ok (empty settings) := rfl
    have hiff := mem_closed_iff (v := v) hnone
    simpa using hiff
  · intro events atlas trace next hatlas ih hnext _
    obtain ⟨bare, hbare, heq, hclosed⟩ := ih
    obtain ⟨before, hbefore, hrun⟩ := replay_append_eq_ok.1 hnext
    cases hatlas.symm.trans hbefore
    obtain ⟨bareNext, hbareRun, hbareEq⟩ := addRun_of_reopened_eq hbefore hbare heq hrun
    refine ⟨bareNext, ?_, hbareEq, ?_⟩
    · rw [runs_append_run, List.map_append]
      exact replay_append_eq_ok.2 ⟨bare, hbare, hbareRun⟩
    · intro v
      have hsame : ClosesOnCount bareNext trace v ↔ ClosesOnCount next trace v := by
        rw [← closesOnCount_reopened, hbareEq, closesOnCount_reopened]
      have hgrows := grows_of_addRun hbareRun
      rw [hgrows.closed, ← hgrows.closesOnCount_iff, hclosed, hsame,
        closedOnCount_append_run hnext]
  · intro events atlas clause w _ ih _ _
    obtain ⟨bare, hbare, heq, hclosed⟩ := ih
    refine ⟨bare, ?_, heq, ?_⟩
    · rw [runs_append_close]
      exact hbare
    · intro v
      rw [hclosed, closedOnCount_append_close]

/-! ## Judging in any order -/

/-- **Judging in any order.**  The decisions of a run may be judged in any
order, and more than once: a run that succeeds closes the same decisions. -/
theorem review_extend (h : atlas.addRun trace = .ok next) {order : List Nat}
    (horder : ∀ u, u ∈ order ↔ ∃ c ∈ trace, c.isDecision = true ∧ next.find? c = some u) :
    ∃ reviewed, (atlas.extend trace).review order = .ok reviewed ∧
      reviewed.reopened = next.reopened ∧ ∀ v, v ∈ reviewed.closed ↔ v ∈ next.closed := by
  have hjudges := judges_addRun atlas trace
  rw [h] at hjudges
  cases hjudges with
  | answered added tested closed =>
      have hreviewed := judges_review_extend horder
      generalize (atlas.extend trace).review order = result at hreviewed ⊢
      cases hreviewed with
      | refused v fault mem isOpen failed =>
          rcases tested v mem with hclosed | ⟨complete, hcomplete⟩
          · exact absurd hclosed isOpen
          · cases failed.symm.trans hcomplete
      | answered others testedToo closedToo =>
          refine ⟨_, rfl, rfl, fun v => ?_⟩
          rw [closed, closedToo]

end

/-! ## All together -/

section

variable {settings : Settings} {events : List Event} {atlas : Atlas}

/-- **Why decisions are closed.**  A decision is closed exactly if somebody
closed it from outside or some run closed it on count.  So only decisions are
closed, what is closed stays closed, and a test of a runtime type is closed from
outside or not at all.  What closes on count depends on the runs alone: the
history without the decisions closed from outside closes exactly that, and each
run may have its decisions judged in any order. -/
theorem closed_iff_marked_or_counted (h : (empty settings).replay events = .ok atlas) :
    (∀ v, atlas.isClosed v = true ↔
      (∃ clause, .close clause ∈ events ∧ atlas.clause? v = some clause) ∨
        ClosedOnCount settings events v) ∧
    (∀ v, atlas.isClosed v = true → atlas.isDecision v = true) ∧
    (∀ more later, (empty settings).replay (events ++ more) = .ok later →
      ∀ v, atlas.isClosed v = true → later.isClosed v = true) ∧
    (∀ v clause, atlas.clause? v = some clause → clause.fact.isTypeCheck = true →
      (atlas.isClosed v = true ↔ .close clause ∈ events)) ∧
    (∃ bare, (empty settings).replay ((runs events).map .run) = .ok bare ∧
      ∀ v, bare.isClosed v = true ↔ ClosedOnCount settings events v) ∧
    (∀ trace next order, atlas.addRun trace = .ok next →
      (∀ u, u ∈ order ↔ ∃ c ∈ trace, c.isDecision = true ∧ next.find? c = some u) →
        ∃ reviewed, (atlas.extend trace).review order = .ok reviewed ∧
          ∀ v, reviewed.isClosed v = next.isClosed v) := by
  simp only [isClosed_iff]
  refine ⟨fun v => mem_closed_iff h, fun v => isDecision_of_mem_closed h,
    fun more later hlater v => mem_closed_append h hlater,
    fun v clause => mem_closed_iff_of_isTypeCheck h, ?_, ?_⟩
  · obtain ⟨bare, hbare, -, hclosed⟩ := exists_bare_replay h
    exact ⟨bare, hbare, hclosed⟩
  · intro trace next order hnext horder
    obtain ⟨reviewed, hreviewed, -, hclosed⟩ := review_extend hnext horder
    refine ⟨reviewed, hreviewed, ?_⟩
    intro v
    rw [Bool.eq_iff_iff, isClosed_iff, isClosed_iff, hclosed]

end

/-- A test of a runtime type. -/
def typeTest : Clause :=
  .jump 2 (.equal (.isA (.var "x") "Integer") (.bool true))

/-- Both ways out of the first decision are taken, and a type test on one of them
is closed from outside in between. -/
def markedBetween : List Event :=
  [.run (decidingRun true ++ [typeTest]), .close typeTest, .run (decidingRun false)]

/-- The type test is closed from outside, the first decision on count. -/
theorem closed_iff_marked_or_counted_between :
    ∃ atlas, (empty {}).replay markedBetween = .ok atlas ∧
      atlas.isClosed 2 = true ∧ ClosedOnCount {} markedBetween 1 := by
  have hvalue : ((empty {}).replay markedBetween).map
      (fun atlas => (atlas.clause? 1, atlas.clause? 2, atlas.isClosed 1)) =
        .ok (some (Tour.comparison true), some typeTest, true) := by
    rfl
  obtain ⟨atlas, h, hvalue⟩ := exists_of_map_eq_ok hvalue
  simp only [Prod.mk.injEq] at hvalue
  rcases hvalue with ⟨hone, htwo, hclosed⟩
  obtain ⟨hreason, -, -, hcheck, -⟩ := closed_iff_marked_or_counted h
  have hmarked : atlas.isClosed 2 = true :=
    (hcheck 2 typeTest htwo rfl).2 (by simp [markedBetween])
  refine ⟨atlas, h, hmarked, ((hreason 1).1 hclosed).resolve_left ?_⟩
  intro houtside
  rcases houtside with ⟨clause, hclose, hclause⟩
  rw [hone] at hclause
  have heq : Tour.comparison true = typeTest := by
    simpa [markedBetween, Option.some.inj hclause] using hclose
  exact absurd heq (by decide)

end Atlas

end Concolic
