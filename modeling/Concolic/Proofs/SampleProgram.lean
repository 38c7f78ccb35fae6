import Concolic.Proofs.Forks
import Concolic.Tour.Report
import Mathlib

/-!
# The sample program on any inputs

The tour looks at a few inputs of the sample program.  Here it is run on any list of
integers.  Which clauses follow one another is fixed by the program text, so its three
decisions are forks whatever the inputs are, and an arm of one is observed as soon as some
input goes that way.  Hence the closed decisions depend only on the ways that were gone:
the order of the inputs and their repetition do not matter, and nothing is closed early or
left open.  And since nothing but its condition leads into a part of the program, no query
has anything to keep.

The integers are those of mathematics.  On machine words the program observes the same,
unless the difference that it computes is too large for one.

## Main results

* `Tour.leads_of_follows`: the flow of the program.
* `Tour.isClosed_iff_finished`: which decisions are closed.
* `Tour.ancestors_eq_nil_of_mem_queries`: queries about the program.
* `Tour.observe_sample_program`: the program on any inputs.
-/

namespace Concolic

namespace Tour

open Atlas

/-! ## The flow of the program -/

/-- What is observed at `L0`. -/
def reading : Clause :=
  .effect 0 "x, y = input()"

/-- What is observed at `L2`. -/
def subtraction : Clause :=
  .effect 2 "t = x - y"

/-- What is observed at `L5`. -/
def reset : Clause :=
  .effect 5 "r = 0"

/-- What is observed at `L6`. -/
def returning : Clause :=
  .effect 6 "return"

/-- The keys of the switch at `L3`, with that of its default. -/
def keys : List Int :=
  [1, 2, 3, -1]

theorem switchKey_mem_keys (difference : Int) : switchKey difference ∈ keys := by
  unfold switchKey keys
  split
  · simp only [List.mem_cons, List.not_mem_nil, or_false]
    omega
  · simp

/-- The steps of the program, from clause to clause. -/
inductive Leads : Clause → Clause → Prop where
  | compare (holds : Bool) : Leads reading (comparison holds)
  | subtract : Leads (comparison true) subtraction
  | select {key : Int} : key ∈ keys → Leads subtraction (selection key)
  | leaveSwitch (key : Int) : Leads (selection key) returning
  | testZero : Leads (comparison false) (zeroTest true)
  | testOther : Leads (comparison false) (zeroTest false)
  | reset : Leads (zeroTest true) reset
  | leaveReset : Leads Tour.reset returning
  | leaveTest : Leads (zeroTest false) returning

/-- The three ways through the program. -/
theorem sampleRun_cases (x y : Int) :
    x > y ∧ sampleRun x y =
        [reading, comparison true, subtraction, selection (switchKey (x - y)), returning] ∨
      x ≤ y ∧ x = 0 ∧
        sampleRun x y = [reading, comparison false, zeroTest true, reset, returning] ∨
      x ≤ y ∧ x ≠ 0 ∧
        sampleRun x y = [reading, comparison false, zeroTest false, returning] := by
  unfold sampleRun body
  by_cases hgreater : x > y
  · rw [if_pos hgreater, decide_eq_true hgreater]
    exact Or.inl ⟨hgreater, rfl⟩
  · have hle : x ≤ y := Int.not_lt.1 hgreater
    rw [if_neg hgreater, decide_eq_false hgreater]
    by_cases hzero : x = 0
    · rw [if_pos hzero]
      exact Or.inr (Or.inl ⟨hle, hzero, rfl⟩)
    · rw [if_neg hzero]
      exact Or.inr (Or.inr ⟨hle, hzero, rfl⟩)

/-- A run takes steps of the program only. -/
theorem isChain_sampleRun (x y : Int) : (sampleRun x y).IsChain Leads := by
  rcases sampleRun_cases x y with ⟨-, hrun⟩ | ⟨-, -, hrun⟩ | ⟨-, -, hrun⟩
  · rw [hrun]
    exact .cons_cons (.compare true) (.cons_cons .subtract (.cons_cons
      (.select (switchKey_mem_keys _)) (.cons_cons (.leaveSwitch _) (.singleton _))))
  · rw [hrun]
    exact .cons_cons (.compare false) (.cons_cons .testZero (.cons_cons .reset
      (.cons_cons .leaveReset (.singleton _))))
  · rw [hrun]
    exact .cons_cons (.compare false) (.cons_cons .testOther
      (.cons_cons .leaveTest (.singleton _)))

theorem Leads.of_reading {clause : Clause} (h : Leads reading clause) :
    ∃ holds, clause = comparison holds := by
  cases h
  exact ⟨_, rfl⟩

theorem Leads.of_subtraction {clause : Clause} (h : Leads subtraction clause) :
    ∃ key ∈ keys, clause = selection key := by
  cases h with
  | select hkey => exact ⟨_, hkey, rfl⟩

theorem Leads.of_comparison {clause : Clause} (h : Leads (comparison false) clause) :
    ∃ isZero, clause = zeroTest isZero := by
  cases h with
  | testZero => exact ⟨true, rfl⟩
  | testOther => exact ⟨false, rfl⟩

theorem Leads.to_comparison {clause : Clause} {holds : Bool}
    (h : Leads clause (comparison holds)) : clause = reading := by
  cases h
  rfl

theorem Leads.to_subtraction {clause : Clause} (h : Leads clause subtraction) :
    clause = comparison true := by
  cases h
  rfl

theorem Leads.to_selection {clause : Clause} {key : Int}
    (h : Leads clause (selection key)) : clause = subtraction := by
  cases h
  rfl

theorem Leads.to_zeroTest {clause : Clause} {isZero : Bool}
    (h : Leads clause (zeroTest isZero)) : clause = comparison false := by
  cases isZero <;> cases h <;> rfl

/-! ## What is observed -/

/-- The second decision of a run. -/
def turn (x y : Int) : Clause :=
  if x > y then selection (switchKey (x - y)) else zeroTest (x = 0)

/-- A run decides twice. -/
theorem decisions_sampleRun (x y : Int) :
    (sampleRun x y).decisions = [comparison (x > y), turn x y] := by
  unfold turn
  rcases sampleRun_cases x y with ⟨hgreater, hrun⟩ | ⟨hle, hzero, hrun⟩ | ⟨hle, hzero, hrun⟩
  · rw [hrun, if_pos hgreater, decide_eq_true hgreater]
    rfl
  · rw [hrun, if_neg (Int.not_lt.2 hle), decide_eq_false (Int.not_lt.2 hle),
      decide_eq_true hzero]
    rfl
  · rw [hrun, if_neg (Int.not_lt.2 hle), decide_eq_false (Int.not_lt.2 hle),
      decide_eq_false hzero]
    rfl

/-- The runs on a list of inputs. -/
def history (inputs : List (Int × Int)) : List Event :=
  (inputs.map fun input => sampleRun input.1 input.2).map .run

variable {inputs : List (Int × Int)} {clause : Clause}

theorem observe_eq_replay (atlas : Atlas) (inputs : List (Int × Int)) :
    observe atlas inputs = atlas.replay (history inputs) := by
  rw [observe, replay, history, List.foldlM_map, List.foldlM_map]
  rfl

theorem mem_runs_history {trace : Trace} :
    trace ∈ runs (history inputs) ↔ ∃ input ∈ inputs, sampleRun input.1 input.2 = trace := by
  rw [history, runs_map_run, List.mem_map]

/-- **The flow of the program**: its runs take steps of the program only. -/
theorem leads_of_follows {first second : Clause} (h : Follows (history inputs) first second) :
    Leads first second := by
  obtain ⟨trace, htrace, front, back, hpair⟩ := h
  obtain ⟨input, -, hrun⟩ := mem_runs_history.1 htrace
  have hchain := isChain_sampleRun input.1 input.2
  rw [hrun, ← hpair] at hchain
  exact List.isChain_pair.1 hchain.left_of_append.right_of_append

theorem eq_reading_of_opens (h : Opens (history inputs) clause) : clause = reading := by
  obtain ⟨trace, htrace, hhead⟩ := h
  obtain ⟨input, -, rfl⟩ := mem_runs_history.1 htrace
  exact (Option.some.inj hhead).symm

theorem observes_iff (hkind : clause.isDecision = true) :
    Observes (history inputs) clause ↔
      ∃ input ∈ inputs, clause = comparison (input.1 > input.2) ∨
        clause = turn input.1 input.2 := by
  have hmem : ∀ x y : Int,
      clause ∈ sampleRun x y ↔ clause = comparison (x > y) ∨ clause = turn x y := by
    intro x y
    have hdecisions : clause ∈ (sampleRun x y).decisions ↔ clause ∈ sampleRun x y := by
      rw [Trace.decisions, List.mem_filter]
      exact and_iff_left hkind
    rw [← hdecisions, decisions_sampleRun, List.mem_pair]
  simp only [Observes, mem_runs_history, ← hmem]
  constructor
  · rintro ⟨_, ⟨input, hinput, rfl⟩, hclause⟩
    exact ⟨input, hinput, hclause⟩
  · rintro ⟨input, hinput, hclause⟩
    exact ⟨_, ⟨input, hinput, rfl⟩, hclause⟩

theorem comparison_inj {holds other : Bool} :
    comparison holds = comparison other ↔ holds = other := by
  simp [comparison, Clause.jump]

theorem selection_inj {key other : Int} : selection key = selection other ↔ key = other := by
  simp [selection]

theorem zeroTest_inj {isZero other : Bool} :
    zeroTest isZero = zeroTest other ↔ isZero = other := by
  cases isZero <;> cases other <;> simp [zeroTest]

theorem selection_ne_comparison {key : Int} {holds : Bool} :
    selection key ≠ comparison holds := by
  simp [comparison, selection, Clause.jump]

theorem zeroTest_ne_comparison {isZero holds : Bool} : zeroTest isZero ≠ comparison holds := by
  simp [comparison, zeroTest, Clause.jump]

theorem comparison_ne_turn (holds : Bool) (x y : Int) : comparison holds ≠ turn x y := by
  unfold turn
  split
  · exact selection_ne_comparison.symm
  · exact zeroTest_ne_comparison.symm

theorem selection_eq_turn_iff {key x y : Int} :
    selection key = turn x y ↔ x > y ∧ switchKey (x - y) = key := by
  unfold turn
  split
  · next hgreater => rw [selection_inj, eq_comm, and_iff_right hgreater]
  · next hgreater => simp [selection, zeroTest, hgreater]

theorem zeroTest_eq_turn_iff {isZero : Bool} {x y : Int} :
    zeroTest isZero = turn x y ↔ x ≤ y ∧ decide (x = 0) = isZero := by
  unfold turn
  split
  · next hgreater => simp [selection, zeroTest, hgreater]
  · next hgreater => rw [zeroTest_inj, eq_comm, and_iff_right (Int.not_lt.1 hgreater)]

theorem observes_comparison_iff {holds : Bool} :
    Observes (history inputs) (comparison holds) ↔
      ∃ input ∈ inputs, decide (input.1 > input.2) = holds := by
  rw [observes_iff rfl]
  refine exists_congr fun input => and_congr_right fun _ => ?_
  rw [comparison_inj, eq_comm]
  exact or_iff_left (comparison_ne_turn holds _ _)

theorem observes_selection_iff {key : Int} :
    Observes (history inputs) (selection key) ↔
      ∃ input ∈ inputs, input.1 > input.2 ∧ switchKey (input.1 - input.2) = key := by
  rw [observes_iff rfl]
  refine exists_congr fun input => and_congr_right fun _ => ?_
  rw [selection_eq_turn_iff]
  exact or_iff_right selection_ne_comparison

theorem observes_zeroTest_iff {isZero : Bool} :
    Observes (history inputs) (zeroTest isZero) ↔
      ∃ input ∈ inputs, input.1 ≤ input.2 ∧ decide (input.1 = 0) = isZero := by
  rw [observes_iff rfl]
  refine exists_congr fun input => and_congr_right fun _ => ?_
  rw [zeroTest_eq_turn_iff]
  exact or_iff_right zeroTest_ne_comparison

/-! ## The forks of the program -/

/-- The program opens with no decision. -/
theorem not_opens_of_isDecision (hkind : clause.isDecision = true) :
    ¬Opens (history inputs) clause := by
  intro hopens
  rw [eq_reading_of_opens hopens] at hkind
  cases hkind

/-- What is a fork by the program text is a fork of its runs. -/
theorem fork_of_leads {before : Clause} {arms : List Clause}
    (hdecide : ∀ arm ∈ arms, arm.isDecision = true ∧ arm.threshold = .ok (some arms.length))
    (hnodup : arms.Nodup) (honward : ∀ clause, Leads before clause → clause ∈ arms)
    (hsole : ∀ arm ∈ arms, ∀ clause, Leads clause arm → clause = before) :
    Fork (history inputs) before arms where
  decide := hdecide
  nodup := hnodup
  onward clause h := honward clause (leads_of_follows h)
  sole arm harm clause h := hsole arm harm clause (leads_of_follows h)
  unopened arm harm := not_opens_of_isDecision (hdecide arm harm).1

theorem fork_comparison (inputs : List (Int × Int)) :
    Fork (history inputs) reading ([true, false].map comparison) := by
  refine fork_of_leads ?_ (by decide) ?_ ?_
  · exact List.forall_mem_map.2 fun holds _ => ⟨rfl, rfl⟩
  · intro clause h
    obtain ⟨holds, rfl⟩ := h.of_reading
    exact List.mem_map_of_mem (by cases holds <;> decide)
  · exact List.forall_mem_map.2 fun holds _ clause h => h.to_comparison

theorem fork_selection (inputs : List (Int × Int)) :
    Fork (history inputs) subtraction (keys.map selection) := by
  refine fork_of_leads ?_ (by decide) ?_ ?_
  · exact List.forall_mem_map.2 fun key _ => ⟨rfl, rfl⟩
  · intro clause h
    obtain ⟨key, hkey, rfl⟩ := h.of_subtraction
    exact List.mem_map_of_mem hkey
  · exact List.forall_mem_map.2 fun key _ clause h => h.to_selection

theorem fork_zeroTest (inputs : List (Int × Int)) :
    Fork (history inputs) (comparison false) ([true, false].map zeroTest) := by
  refine fork_of_leads ?_ (by decide) ?_ ?_
  · refine List.forall_mem_map.2 fun isZero _ => ?_
    cases isZero <;> exact ⟨rfl, rfl⟩
  · intro clause h
    obtain ⟨isZero, rfl⟩ := h.of_comparison
    exact List.mem_map_of_mem (by cases isZero <;> decide)
  · exact List.forall_mem_map.2 fun isZero _ clause h => h.to_zeroTest

/-! ## Which decisions are closed -/

/-- The inputs go all ways at the decision of a clause. -/
inductive Finished (inputs : List (Int × Int)) : Clause → Prop where
  | comparison (holds : Bool) (hgreater : ∃ input ∈ inputs, input.1 > input.2)
      (hother : ∃ input ∈ inputs, input.1 ≤ input.2) : Finished inputs (comparison holds)
  | selection {key : Int} (hkey : key ∈ keys)
      (hlisted : ∀ difference ∈ [1, 2, 3], ∃ input ∈ inputs,
        input.1 > input.2 ∧ input.1 - input.2 = difference)
      (hdefault : ∃ input ∈ inputs, input.1 > input.2 ∧ input.1 - input.2 > 3) :
      Finished inputs (selection key)
  | zeroTest (isZero : Bool) (hzero : ∃ input ∈ inputs, input.1 ≤ input.2 ∧ input.1 = 0)
      (hother : ∃ input ∈ inputs, input.1 ≤ input.2 ∧ input.1 ≠ 0) :
      Finished inputs (zeroTest isZero)

theorem finished_comparison_iff {holds : Bool} :
    Finished inputs (comparison holds) ↔
      ∀ arm ∈ [true, false].map comparison, Observes (history inputs) arm := by
  rw [List.forall_mem_map, List.forall_mem_cons, List.forall_mem_singleton,
    observes_comparison_iff, observes_comparison_iff]
  simp only [decide_eq_true_iff, decide_eq_false_iff_not, gt_iff_lt, not_lt]
  constructor
  · intro h
    cases h with
    | comparison _ hgreater hother => exact ⟨hgreater, hother⟩
  · intro h
    exact .comparison holds h.1 h.2

theorem finished_zeroTest_iff {isZero : Bool} :
    Finished inputs (zeroTest isZero) ↔
      ∀ arm ∈ [true, false].map zeroTest, Observes (history inputs) arm := by
  rw [List.forall_mem_map, List.forall_mem_cons, List.forall_mem_singleton,
    observes_zeroTest_iff, observes_zeroTest_iff]
  simp only [decide_eq_true_iff, decide_eq_false_iff_not]
  constructor
  · intro h
    generalize hclause : zeroTest isZero = clause at h
    cases h with
    | comparison holds => exact absurd hclause zeroTest_ne_comparison
    | selection => simp [zeroTest, selection] at hclause
    | zeroTest _ hzero hother => exact ⟨hzero, hother⟩
  · intro h
    exact .zeroTest isZero h.1 h.2

theorem switchKey_eq_iff {difference key : Int} (hkey : key ∈ [1, 2, 3]) :
    switchKey difference = key ↔ difference = key := by
  unfold switchKey
  simp only [List.mem_cons, List.not_mem_nil, or_false] at hkey
  split <;> omega

theorem switchKey_eq_default_iff {difference : Int} (hpos : 0 < difference) :
    switchKey difference = -1 ↔ difference > 3 := by
  unfold switchKey
  split <;> omega

theorem finished_selection_iff {key : Int} (hkey : key ∈ keys) :
    Finished inputs (selection key) ↔
      ∀ arm ∈ keys.map selection, Observes (history inputs) arm := by
  have hlisted : ∀ difference ∈ [1, 2, 3], (Observes (history inputs) (selection difference) ↔
      ∃ input ∈ inputs, input.1 > input.2 ∧ input.1 - input.2 = difference) := by
    intro difference hdifference
    simp only [observes_selection_iff, switchKey_eq_iff hdifference]
  have hdefault : Observes (history inputs) (selection (-1)) ↔
      ∃ input ∈ inputs, input.1 > input.2 ∧ input.1 - input.2 > 3 := by
    rw [observes_selection_iff]
    refine exists_congr fun input => and_congr_right fun _ => and_congr_right fun hgreater => ?_
    exact switchKey_eq_default_iff (Int.sub_pos.2 hgreater)
  have hkeys : keys = [1, 2, 3] ++ [-1] := rfl
  rw [List.forall_mem_map, hkeys, List.forall_mem_append, List.forall_mem_singleton, hdefault]
  constructor
  · intro h
    cases h with
    | selection _ hseen hother =>
        refine ⟨?_, hother⟩
        intro difference hmem
        exact (hlisted difference hmem).2 (hseen difference hmem)
  · intro h
    refine .selection hkey ?_ h.2
    intro difference hmem
    exact (hlisted difference hmem).1 (h.1 difference hmem)

section

variable {settings : Settings} {atlas : Atlas}

theorem exists_run_of_mem_history {event : Event} (hevent : event ∈ history inputs) :
    ∃ trace, event = .run trace := by
  obtain ⟨trace, -, rfl⟩ := List.mem_map.1 hevent
  exact ⟨trace, rfl⟩

/-- A decision of the program is closed once the inputs go all its ways. -/
theorem isClosed_iff_of_clause? (h : (empty settings).replay (history inputs) = .ok atlas)
    {v : Nat} (hv : atlas.clause? v = some clause) (hkind : clause.isDecision = true) :
    atlas.isClosed v = true ↔ Finished inputs clause := by
  have hruns : ∀ event ∈ history inputs, ∃ trace, event = .run trace :=
    fun _ => exists_run_of_mem_history
  have hobserved : Observes (history inputs) clause :=
    (mem_clauses_iff h).1 (clause?_eq_some_iff.1 hv).1
  obtain ⟨⟨x, y⟩, -, rfl | rfl⟩ := (observes_iff hkind).1 hobserved
  · rw [finished_comparison_iff]
    exact (fork_comparison inputs).isClosed_iff h hruns
      (List.mem_map_of_mem (by cases decide (x > y) <;> decide)) hv
  · unfold turn at hv ⊢
    split at hv
    · next hgreater =>
      have hkey := switchKey_mem_keys (x - y)
      rw [if_pos hgreater, finished_selection_iff hkey]
      exact (fork_selection inputs).isClosed_iff h hruns (List.mem_map_of_mem hkey) hv
    · next hgreater =>
      rw [if_neg hgreater, finished_zeroTest_iff]
      exact (fork_zeroTest inputs).isClosed_iff h hruns
        (List.mem_map_of_mem (by cases decide (x = 0) <;> decide)) hv

theorem Finished.isDecision (hfinished : Finished inputs clause) : clause.isDecision = true := by
  cases hfinished <;> rfl

/-- What the inputs have finished was observed. -/
theorem Finished.observes (hfinished : Finished inputs clause) :
    Observes (history inputs) clause := by
  cases hfinished with
  | comparison holds hgreater hother =>
      refine finished_comparison_iff.1 (.comparison holds hgreater hother) _ ?_
      exact List.mem_map_of_mem (by cases holds <;> decide)
  | selection hkey hlisted hdefault =>
      exact (finished_selection_iff hkey).1 (.selection hkey hlisted hdefault) _
        (List.mem_map_of_mem hkey)
  | zeroTest isZero hzero hother =>
      refine finished_zeroTest_iff.1 (.zeroTest isZero hzero hother) _ ?_
      exact List.mem_map_of_mem (by cases isZero <;> decide)

/-- **Which decisions are closed**: those of which the inputs go all ways. -/
theorem isClosed_iff_finished (h : (empty settings).replay (history inputs) = .ok atlas)
    {v : Nat} :
    atlas.isClosed v = true ↔
      ∃ clause, Finished inputs clause ∧ atlas.find? clause = some v := by
  constructor
  · intro hclosed
    obtain ⟨clause, hv, hkind⟩ :=
      exists_clause?_of_isDecision (isDecision_of_mem_closed h (isClosed_iff.1 hclosed))
    exact ⟨clause, (isClosed_iff_of_clause? h hv hkind).1 hclosed, find?_eq_some_iff.2 hv⟩
  · intro hfinished
    rcases hfinished with ⟨clause, hfinished, hv⟩
    exact (isClosed_iff_of_clause? h (find?_eq_some_iff.1 hv) hfinished.isDecision).2 hfinished

theorem exists_vertex_of_finished (h : (empty settings).replay (history inputs) = .ok atlas)
    (hfinished : Finished inputs clause) : ∃ v, atlas.find? clause = some v :=
  ⟨_, find?_eq_some_iff.2 (clause?_position h hfinished.observes)⟩

/-! ## Queries about the program -/

/-- Every run begins at the origin. -/
theorem head?_eq_origin (h : (empty settings).replay (history inputs) = .ok atlas)
    {trace : Trace} (htrace : trace ∈ runs (history inputs)) :
    trace.head? = atlas.origin?.bind atlas.clause? := by
  have hobserved : Observes (history inputs) reading := by
    obtain ⟨input, -, rfl⟩ := mem_runs_history.1 htrace
    exact ⟨_, htrace, List.mem_cons_self⟩
  have hpos : 0 < atlas.size := by
    have hlt := lt_size_of_clause? (clause?_position h hobserved)
    omega
  have horigin : atlas.origin? = some 0 := origin?_eq_some_iff.2 ⟨rfl, hpos⟩
  obtain ⟨first, hfirst⟩ := exists_clause? hpos
  rw [horigin, Option.bind_some, hfirst,
    eq_reading_of_opens (opens_of_origin? h horigin hfirst)]
  obtain ⟨input, -, rfl⟩ := mem_runs_history.1 htrace
  rfl

/-- The comparison is always passed before a decision that depends on it. -/
theorem dominates_turn (h : (empty settings).replay (history inputs) = .ok atlas) {x y : Int}
    {u v : Nat} (hwithin : atlas.Within v) (hu : atlas.clause? u = some (comparison (x > y)))
    (hv : atlas.clause? v = some (turn x y)) : atlas.dominates u v = true := by
  unfold turn at hv
  split at hv
  · next hgreater =>
    rw [decide_eq_true hgreater] at hu
    have hselected : Observes (history inputs) (selection (switchKey (x - y))) :=
      (mem_clauses_iff h).1 (clause?_eq_some_iff.1 hv).1
    have hfollows := (fork_selection inputs).follows
      (List.mem_map_of_mem (switchKey_mem_keys _)) hselected
    have hw := clause?_position h hfollows.observes.1
    have hlater := dominates_of_sole h hwithin hw hv (not_opens_of_isDecision rfl)
      fun other hother => (leads_of_follows hother).to_selection
    refine dominates_trans ?_ hlater
    refine dominates_of_sole h (within_of_dominates hlater) hu hw ?_
      fun other hother => (leads_of_follows hother).to_subtraction
    intro hopens
    cases eq_reading_of_opens hopens
  · next hgreater =>
    rw [decide_eq_false hgreater] at hu
    exact dominates_of_sole h hwithin hu hv (not_opens_of_isDecision rfl)
      fun other hother => (leads_of_follows hother).to_zeroTest

/-- The initial parts of a list of two, told by their last member. -/
theorem prefix_pair {α : Type} {xs : List α} {a b last : α} (h : xs <+: [a, b])
    (hlast : xs.getLast? = some last) : xs = [a] ∧ last = a ∨ xs = [a, b] ∧ last = b := by
  rw [List.prefix_cons_iff] at h
  rcases h with rfl | ⟨rest, rfl, hrest⟩
  · cases hlast
  · rw [List.prefix_cons_iff] at hrest
    rcases hrest with rfl | ⟨rest', rfl, hrest'⟩
    · exact Or.inl ⟨rfl, (Option.some.inj hlast).symm⟩
    · rw [List.prefix_nil.1 hrest'] at hlast ⊢
      exact Or.inr ⟨rfl, (Option.some.inj hlast).symm⟩

/-- **Queries about the program** have nothing to keep. -/
theorem ancestors_eq_nil_of_mem_queries
    (h : (empty settings).replay (history inputs) = .ok atlas) {target limit : Nat}
    {query : Query} (hquery : query ∈ atlas.queries target limit) : query.ancestors = [] := by
  obtain ⟨clause, htarget, hlast, htrace, hpath, -⟩ := followed_of_mem_queries h hquery
  obtain ⟨back, hroute, -⟩ := exists_route_of_mem_queries h hquery (head?_eq_origin h htrace)
  have hobserved : ∀ c ∈ query.path, Observes (history inputs) c :=
    fun c hc => (Followed.decision ⟨query.trace, htrace, hpath⟩ hc).2
  obtain ⟨⟨x, y⟩, -, hrun⟩ := mem_runs_history.1 htrace
  rw [← hrun, decisions_sampleRun] at hpath
  rw [(mem_queries_iff.1 hquery).2.1]
  refine ancestors_eq_nil fun v hv => ?_
  obtain ⟨c, hc, hvc⟩ := (mem_itinerary_iff h hobserved).1 hv
  rcases prefix_pair hpath hlast with ⟨hshort, rfl⟩ | ⟨hlong, rfl⟩
  · rw [hshort, List.mem_singleton] at hc
    rw [hc] at hvc
    exact Or.inl (eq_of_clause? hvc htarget)
  · rw [hlong, List.mem_pair] at hc
    rcases hc with rfl | rfl
    · exact Or.inr (dominates_turn h ⟨back, hroute⟩ hvc htarget)
    · exact Or.inl (eq_of_clause? hvc htarget)

end

/-- No run of the program is refused. -/
theorem exists_observe_eq_ok (settings : Settings) (inputs : List (Int × Int)) :
    ∃ atlas, (empty settings).replay (history inputs) = .ok atlas := by
  refine exists_replay_map_run settings fun trace htrace clause hclause low high hkeyless => ?_
  have hobserved : Observes (history inputs) clause := by
    refine ⟨trace, ?_, hclause⟩
    rwa [history, runs_map_run]
  obtain ⟨⟨x, y⟩, -, rfl | rfl⟩ := (observes_iff hkeyless.decides).1 hobserved
  · cases hkeyless.table
  · have htable := hkeyless.table
    unfold turn at htable
    split at htable
    · cases htable
    · cases htable

/-- **The program on any inputs.**  No run is refused.  Afterwards a decision is closed
exactly if the inputs have gone all its ways: both sides of the comparison; among the inputs
with `x > y` the differences one, two and three and a larger one; and among the others a
zero `x` and another.  All arms of these decisions are on the map.  And no query keeps an
ancestor, however many it may keep. -/
theorem observe_sample_program (settings : Settings) (inputs : List (Int × Int)) :
    ∃ atlas, observe (Atlas.empty settings) inputs = .ok atlas ∧
      (∀ v, atlas.isClosed v = true ↔
        ∃ clause, Finished inputs clause ∧ atlas.find? clause = some v) ∧
      (∀ clause, Finished inputs clause → ∃ v, atlas.find? clause = some v) ∧
      ∀ target limit, ∀ query ∈ atlas.queries target limit, query.ancestors = [] := by
  obtain ⟨atlas, h⟩ := exists_observe_eq_ok settings inputs
  refine ⟨atlas, ?_, fun v => isClosed_iff_finished h,
    fun clause => exists_vertex_of_finished h,
    fun target limit query => ancestors_eq_nil_of_mem_queries h⟩
  rw [observe_eq_replay]
  exact h

end Tour

end Concolic
