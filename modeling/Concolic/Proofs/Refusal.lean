import Concolic.Proofs.Closing
import Concolic.Proofs.Correspondence

/-!
# When a run is refused

To judge a decision one has to know how many outcomes it needs, and a jump table
without keys has no such number.  It is asked for in the last step of a run, after
everything was entered, and only of the decisions that are due and still open.  Still no
such table gets by.  Every decision that a run visits is due.  If one is passed over
because it is closed, it was on the map before, and then the run that brought it had it
judged.  So it depends on the run alone whether it is refused.

The rest of a run cannot fail, which is seen best where everything is kept by vertex and
every number is looked up.

## Main results

* `Atlas.exists_threshold`: the decisions on the map have a well-formed number
  of outcomes.
* `Atlas.Judges.refusedForTables`: what judging is refused for, in any order.
* `Atlas.addRun_refused_iff`: which runs are refused, and in which words.
-/

namespace Concolic

/-! ## Decisions without a number of outcomes -/

/-- One side of the comparison is the test of a runtime type. -/
def Fact.TestsType (fact : Fact) : Prop :=
  ∃ left right, (fact = .equal left right ∨ fact = .distinct left right) ∧
    ((∃ subject name, left = .isA subject name) ∨
      ∃ subject name, right = .isA subject name)

/-- The clause observes a decision at a jump table that has no keys, and compares
nothing with the test of a runtime type. -/
structure Clause.Keyless (clause : Clause) (low high : Int) : Prop where
  decides : clause.isDecision = true
  table : clause.instruction = .table low high
  empty : high < low
  untyped : ¬clause.fact.TestsType

theorem Term.isTypeTest_iff {term : Term} :
    term.isTypeTest = true ↔ ∃ subject name, term = .isA subject name := by
  cases term <;> simp [isTypeTest]

theorem Fact.isTypeCheck_iff {fact : Fact} :
    fact.isTypeCheck = true ↔ fact.TestsType := by
  cases fact with
  | equal left right => simp [isTypeCheck, TestsType, Term.isTypeTest_iff]
  | distinct left right => simp [isTypeCheck, TestsType, Term.isTypeTest_iff]
  | remark words => simp [isTypeCheck, TestsType]

/-- A decision has no well-formed number of outcomes exactly if its table has no
keys. -/
theorem Clause.threshold_eq_error_iff_keyless {clause : Clause} {fault : Fault}
    (hkind : clause.isDecision = true) :
    clause.threshold = .error fault ↔
      ∃ low high, clause.Keyless low high ∧ fault = .emptyTable low high := by
  rw [threshold_eq_error_iff, ← Bool.not_eq_true, Fact.isTypeCheck_iff]
  constructor
  · intro h
    obtain ⟨huntyped, low, high, htable, hempty, hfault⟩ := h
    exact ⟨low, high, ⟨hkind, htable, hempty, huntyped⟩, hfault⟩
  · intro h
    obtain ⟨low, high, hkeyless, hfault⟩ := h
    exact ⟨hkeyless.untyped, low, high, hkeyless.table, hkeyless.empty, hfault⟩

namespace Atlas

section

variable {settings : Settings} {events : List Event} {atlas : Atlas} {trace : Trace}

/-! ## What is on the map -/

theorem decisionVertex_eq_ok_iff {v : Nat} {clause : Clause} :
    atlas.decisionVertex clause = .ok v ↔
      clause.isDecision = true ∧ atlas.clause? v = some clause := by
  rw [← find?_eq_some_iff, decisionVertex, vertex]
  cases clause.isDecision with
  | false => simp
  | true => cases atlas.find? clause <;> simp

theorem isComplete_eq_error_iff {v : Nat} {fault : Fault} :
    atlas.isComplete v = .error fault ↔
      ∃ clause, atlas.clause? v = some clause ∧ clause.threshold = .error fault := by
  unfold isComplete
  cases hv : atlas.clause? v with
  | none => simp
  | some clause =>
      cases hthreshold : clause.threshold with
      | error other => simp [bind, Except.bind, hthreshold]
      | ok count =>
          cases count <;> simp [bind, Except.bind, pure, Except.pure, hthreshold]

/-- Whatever is closed is on the map. -/
theorem lt_size_of_mem_closed (h : (empty settings).replay events = .ok atlas) {v : Nat}
    (hv : v ∈ atlas.closed) : v < atlas.size := by
  revert hv
  refine replay_induction (P := fun _ atlas => v ∈ atlas.closed → v < atlas.size) ?_ ?_ ?_ h
  · intro hv
    exact absurd hv (Roster.not_mem_empty v)
  · intro events atlas trace next _ ih _ hgrows hv
    rcases (hgrows.closed v).1 hv with hold | ⟨hdue, -⟩
    · exact (ih hold).trans_le hgrows.size_le
    · obtain ⟨clause, hclause, -⟩ := exists_clause?_of_isDecision hdue.1
      exact lt_size_of_clause? hclause
  · intro events atlas clause w _ ih hw _ hv
    rcases Roster.mem_add.1 hv with hold | rfl
    · exact ih hold
    · exact lt_size_of_clause? (decisionVertex_eq_ok_iff.1 hw).2

/-- What a run passes over because it is closed was on the map before the run. -/
theorem mem_clauses_of_closed (h : (empty settings).replay events = .ok atlas) {v : Nat}
    {clause : Clause} (hv : v ∈ atlas.closed)
    (hclause : (atlas.extend trace).clause? v = some clause) : clause ∈ atlas.clauses := by
  obtain ⟨old, hold⟩ := exists_clause? (lt_size_of_mem_closed h hv)
  have hmem := (clause?_eq_some_iff.1 hold).1
  have hkept : (atlas.extend trace).clause? v = some old :=
    (Roster.get?_addAll_iff hmem trace v).2 hold
  cases hkept.symm.trans hclause
  exact hmem

/-- **The decisions on the map** have a well-formed number of outcomes.  The runs that
brought them had them judged, since what they might have passed over came before. -/
theorem exists_threshold (h : (empty settings).replay events = .ok atlas)
    {clause : Clause} (hclause : clause ∈ atlas.clauses)
    (hkind : clause.isDecision = true) : ∃ count, clause.threshold = .ok count := by
  revert hclause
  refine replay_induction (P := fun _ atlas => clause ∈ atlas.clauses →
    ∃ count, clause.threshold = .ok count) ?_ ?_ ?_ h
  · intro hclause
    exact absurd hclause (Roster.not_mem_empty clause)
  · intro events atlas trace next hatlas ih _ hgrows hclause
    rcases hgrows.mem_clauses.1 hclause with hold | hnew
    · exact ih hold
    · have hv := (hgrows.position_iff hnew).1 rfl
      rcases hgrows.judged _ (hgrows.due_of_mem hv hkind hnew) with
        hclosed | ⟨complete, hcomplete⟩
      · have hclauses : (atlas.extend trace).clauses = next.clauses := hgrows.clauses.symm
        have hextended : (atlas.extend trace).clause? (next.clauses.position clause) =
            some clause := by
          rw [clause?, hclauses]
          exact hv
        exact ih (mem_clauses_of_closed hatlas hclosed hextended)
      · cases hthreshold : clause.threshold with
        | ok count => exact ⟨count, rfl⟩
        | error fault =>
            have hfault := isComplete_eq_error_iff.2 ⟨clause, hv, hthreshold⟩
            cases hfault.symm.trans hcomplete
  · intro events atlas other w _ ih _ _ hclause
    exact ih hclause

/-! ## What a run is refused for -/

theorem mem_clauses_extend {clause : Clause} :
    clause ∈ (atlas.extend trace).clauses ↔ clause ∈ atlas.clauses ∨ clause ∈ trace :=
  Roster.mem_addAll

/-- The decisions of a run are judged in any order that has all of them. -/
theorem judges_review_extend {order : List Nat}
    (horder : ∀ u, u ∈ order ↔ ∃ c ∈ trace, c.isDecision = true ∧
      (atlas.extend trace).find? c = some u) :
    Judges (atlas.extend trace) ((atlas.extend trace).Due trace)
      ((atlas.extend trace).review order) := by
  refine judges_review_of_order fun u => (horder u).trans ?_
  refine exists_congr fun c => and_congr_right fun hc => and_congr_right fun _ => ?_
  rw [find?_eq_some_iff, clause?_eq_some_iff]
  exact and_iff_right (mem_clauses_extend.2 (Or.inr hc))

variable {result : Except Fault Atlas}

/-- A run is not blamed for what was on the map before. -/
theorem Judges.exists_keyless_of_error (h : (empty settings).replay events = .ok atlas)
    (hjudges : Judges (atlas.extend trace) ((atlas.extend trace).Due trace) result)
    {fault : Fault} (hfault : result = .error fault) :
    ∃ clause ∈ trace, ∃ low high, clause.Keyless low high ∧
      fault = .emptyTable low high := by
  subst hfault
  cases hjudges with
  | refused v fault mem isOpen failed =>
      obtain ⟨clause, hv, hthreshold⟩ := isComplete_eq_error_iff.1 failed
      have hkind : clause.isDecision = true := by
        rw [← isDecision_of_clause? hv]
        exact mem.1
      refine ⟨clause, ?_, (Clause.threshold_eq_error_iff_keyless hkind).1 hthreshold⟩
      rcases mem_clauses_extend.1 (clause?_eq_some_iff.1 hv).1 with hold | hnew
      · obtain ⟨count, hcount⟩ := exists_threshold h hold hkind
        cases hthreshold.symm.trans hcount
      · exact hnew

/-- No table without keys is passed over: what a run visits is due, and if it were closed
it would have been judged before. -/
theorem Judges.exists_error_of_keyless (h : (empty settings).replay events = .ok atlas)
    (hjudges : Judges (atlas.extend trace) ((atlas.extend trace).Due trace) result)
    {clause : Clause} (hclause : clause ∈ trace) {low high : Int}
    (hkeyless : clause.Keyless low high) : ∃ fault, result = .error fault := by
  have hthreshold := (Clause.threshold_eq_error_iff_keyless hkeyless.decides).2
    ⟨low, high, hkeyless, rfl⟩
  have hv : (atlas.extend trace).clause?
      ((atlas.extend trace).clauses.position clause) = some clause :=
    clause?_eq_some_iff.2 ⟨mem_clauses_extend.2 (Or.inr hclause), rfl⟩
  have hdue : (atlas.extend trace).Due trace
      ((atlas.extend trace).clauses.position clause) := by
    refine ⟨?_, clause, hclause, hkeyless.decides, Or.inl rfl⟩
    rw [isDecision_of_clause? hv]
    exact hkeyless.decides
  cases hjudges with
  | refused v fault mem isOpen failed => exact ⟨fault, rfl⟩
  | answered added tested closed =>
      rcases tested _ hdue with hclosed | ⟨complete, hcomplete⟩
      · obtain ⟨count, hcount⟩ :=
          exists_threshold h (mem_clauses_of_closed h hclosed hv) hkeyless.decides
        cases hthreshold.symm.trans hcount
      · cases (isComplete_eq_error_iff.2 ⟨clause, hv, hthreshold⟩).symm.trans hcomplete

/-- A run is refused exactly if it observes a decision at a jump table without keys that
tests no runtime type.  The fault then names the bounds of one such table of the run. -/
structure RefusedForTables {α : Type} (trace : Trace) (result : Except Fault α) : Prop where
  refused_iff : (∃ fault, result = .error fault) ↔
    ∃ clause ∈ trace, ∃ low high, clause.Keyless low high
  message : ∀ fault, result = .error fault →
    ∃ clause ∈ trace, ∃ low high, clause.Keyless low high ∧
      fault.message = "Table switch range " ++ toString low ++ "..=" ++ toString high ++
        " is empty"

/-- Judging the decisions of a run is refused for its tables, however it is done. -/
theorem Judges.refusedForTables (h : (empty settings).replay events = .ok atlas)
    (hjudges : Judges (atlas.extend trace) ((atlas.extend trace).Due trace) result) :
    RefusedForTables trace result where
  refused_iff := by
    constructor
    · intro hrefused
      obtain ⟨fault, hfault⟩ := hrefused
      obtain ⟨clause, hclause, low, high, hkeyless, -⟩ :=
        hjudges.exists_keyless_of_error h hfault
      exact ⟨clause, hclause, low, high, hkeyless⟩
    · intro hkeyless
      obtain ⟨clause, hclause, low, high, hkeyless⟩ := hkeyless
      exact hjudges.exists_error_of_keyless h hclause hkeyless
  message := by
    intro fault hfault
    obtain ⟨clause, hclause, low, high, hkeyless, rfl⟩ :=
      hjudges.exists_keyless_of_error h hfault
    exact ⟨clause, hclause, low, high, hkeyless, rfl⟩

theorem refusedForTables_addRun (h : (empty settings).replay events = .ok atlas)
    (trace : Trace) : RefusedForTables trace (atlas.addRun trace) :=
  (judges_addRun atlas trace).refusedForTables h

/-- A run that is kept by vertex is refused for its tables and for nothing else: every
lookup on the way leads somewhere. -/
theorem exists_gazetteer_refusedForTables (h : (empty settings).replay events = .ok atlas)
    (hroom : (runs (events ++ [.run trace])).flatten.toFinset.card ≤ vertexLimit) :
    ∃ gazetteer, (Gazetteer.empty settings).replay events = .ok gazetteer ∧
      RefusedForTables trace (gazetteer.addRun trace) := by
  obtain ⟨gazetteer, hreplay, hmirrors⟩ :=
    (Gazetteer.agree_replay settings events (Gazetteer.card_le_of_append hroom)).exists_left h
  have hagree := Gazetteer.agree_addRun hmirrors ((Gazetteer.size_extend h).trans_le hroom)
  have hrefused := refusedForTables_addRun h trace
  refine ⟨gazetteer, hreplay, ?_, ?_⟩
  · rw [← hrefused.refused_iff]
    exact exists_congr hagree.error_iff
  · intro fault hfault
    exact hrefused.message fault ((hagree.error_iff fault).1 hfault)

/-- **Which runs are refused**: those that observe a decision at a jump table
without keys, unless it tests a runtime type.  The fault names the bounds of one
such table of the run.  The rest of the run has no part in it: effects and tests of
runtime types may be left out.  Neither has what was on the map before: any other
atlas refuses the same runs.  The decisions of the run may be judged in any order.  And
if everything is kept by vertex, then a run is refused in the same cases and words, as
long as there is a number for every vertex. -/
theorem addRun_refused_iff (h : (empty settings).replay events = .ok atlas)
    (trace : Trace) :
    RefusedForTables trace (atlas.addRun trace) ∧
    ((∃ fault, atlas.addRun trace = .error fault) ↔ ∃ fault, atlas.addRun
      (trace.filter fun c => c.isDecision && !c.fact.isTypeCheck) = .error fault) ∧
    (∀ settings' events' other, (empty settings').replay events' = .ok other →
      ((∃ fault, atlas.addRun trace = .error fault) ↔
        ∃ fault, other.addRun trace = .error fault)) ∧
    (∀ order, (∀ u, u ∈ order ↔ ∃ c ∈ trace, c.isDecision = true ∧
        (atlas.extend trace).find? c = some u) →
      RefusedForTables trace ((atlas.extend trace).review order)) ∧
    ((runs (events ++ [.run trace])).flatten.toFinset.card ≤ vertexLimit →
      ∃ gazetteer, (Gazetteer.empty settings).replay events = .ok gazetteer ∧
        RefusedForTables trace (gazetteer.addRun trace)) := by
  have hrefused := fun trace => (refusedForTables_addRun h trace).refused_iff
  refine ⟨refusedForTables_addRun h trace, ?_, ?_, ?_, exists_gazetteer_refusedForTables h⟩
  · rw [hrefused, hrefused]
    refine exists_congr fun clause => ?_
    rw [List.mem_filter, and_assoc]
    refine and_congr_right fun _ => (and_iff_right_of_imp ?_).symm
    rintro ⟨low, high, hkeyless⟩
    rw [Bool.and_eq_true, Bool.not_eq_true', ← Bool.not_eq_true, Fact.isTypeCheck_iff]
    exact ⟨hkeyless.decides, hkeyless.untyped⟩
  · intro settings' events' other hother
    rw [hrefused, (refusedForTables_addRun hother trace).refused_iff]
  · intro order horder
    exact (judges_review_extend horder).refusedForTables h

end

/-- What is observed at a jump table with keys from `low` to `high`. -/
def jumpTable (kind : Kind) (low high : Int) (fact : Fact) : Clause :=
  ⟨⟨8⟩, .table low high, ⟨kind, fact⟩⟩

/-- Tables without keys at an effect and at a test of a runtime type. -/
def harmlessTables : Trace :=
  [jumpTable .effect 3 1 (.equal (.var "key") (.int 2)),
    jumpTable .decision 3 1 (.equal (.isA (.var "key") "Integer") (.bool true))]

/-- A decision at a table without keys, after one at a table with keys. -/
def keylessRun : Trace :=
  [jumpTable .decision 1 3 (.equal (.var "key") (.int 2)),
    jumpTable .decision 3 1 (.equal (.var "key") (.int 2))]

/-- The first run has tables without keys and is not refused; the second is, also if all is
kept by vertex. -/
theorem addRun_refused_iff_keyless :
    ∃ atlas fault, (empty {}).replay [.run harmlessTables] = .ok atlas ∧
      atlas.addRun (harmlessTables ++ keylessRun) = .error fault ∧
      fault.message = "Table switch range 3..=1 is empty" ∧
      ∃ gazetteer, (Gazetteer.empty {}).replay [.run harmlessTables] = .ok gazetteer ∧
        ∃ other, gazetteer.addRun (harmlessTables ++ keylessRun) = .error other := by
  have hvalue : ((empty {}).replay [.run harmlessTables]).map size = .ok 2 := by
    rfl
  obtain ⟨atlas, h, -⟩ := exists_of_map_eq_ok hvalue
  obtain ⟨⟨hrefused, hmessage⟩, -, -, -, hpages⟩ :=
    addRun_refused_iff h (harmlessTables ++ keylessRun)
  have hkeyless : ∃ clause ∈ harmlessTables ++ keylessRun, ∃ low high,
      clause.Keyless low high :=
    ⟨jumpTable .decision 3 1 (.equal (.var "key") (.int 2)), by decide, 3, 1,
      { decides := rfl, table := rfl, empty := by decide
        untyped := by
          rw [← Fact.isTypeCheck_iff]
          decide }⟩
  obtain ⟨fault, hfault⟩ := hrefused.2 hkeyless
  obtain ⟨gazetteer, hgazetteer, hsame⟩ := hpages (by decide)
  refine ⟨atlas, fault, h, hfault, ?_, gazetteer, hgazetteer, hsame.refused_iff.2 hkeyless⟩
  obtain ⟨clause, hclause, low, high, hkeyless, hwords⟩ := hmessage fault hfault
  -- only one clause of the run is a decision at a table without keys
  have honly : ∀ c ∈ harmlessTables ++ keylessRun,
      c.isDecision = true → c.fact.isTypeCheck = false →
        c.instruction = .table 3 1 ∨ c.instruction = .table 1 3 := by
    decide
  have huntyped : clause.fact.isTypeCheck = false := by
    rw [← Bool.not_eq_true, Fact.isTypeCheck_iff]
    exact hkeyless.untyped
  have hempty := hkeyless.empty
  rcases honly clause hclause hkeyless.decides huntyped with htable | htable
  · rw [hkeyless.table, Instruction.table.injEq] at htable
    rw [hwords, htable.1, htable.2]
    rfl
  · rw [hkeyless.table, Instruction.table.injEq] at htable
    omega

end Atlas

end Concolic
