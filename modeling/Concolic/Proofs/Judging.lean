import Concolic.Atlas.Growth
import Concolic.Proofs.Requests
import Mathlib.Data.List.Basic
import Mathlib.Tactic.Tauto

/-!
# Judging decisions

To judge a decision is to close it if it is complete.  Whether it is complete
depends on the map alone and not on what is closed, so the judgements of a run do
not influence each other, and a decision that is passed over because it is closed
would have closed nothing.  What it might have done is to refuse the run, since
its clause need not have a well-formed number of outcomes.  So if the decisions of
a set are judged, those of them that were open had such a number, and if judging
is refused, then for a decision that was open.

Single judgements, those around a decision and those of a whole run all come to
this, and the last two are sequences of the ones before.

## Main results

* `Atlas.Judges.foldlM`: judgements in sequence.
* `Atlas.judges_review`: judging in any order.
* `Atlas.judges_addRun`: what a run has judged.
-/

namespace Concolic

namespace Atlas

/-- The decision at `v` is gone through when a run is judged: the run visits it, or
visits a decision that has it among its outcomes. -/
def Due (atlas : Atlas) (trace : Trace) (v : Nat) : Prop :=
  atlas.isDecision v = true ∧ ∃ clause ∈ trace, clause.isDecision = true ∧
    (v = atlas.clauses.position clause ∨
      v ∈ atlas.outcomeIds (atlas.clauses.position clause))

/-- What judging the decisions of a set comes to. -/
inductive Judges (atlas : Atlas) (S : Nat → Prop) : Except Fault Atlas → Prop where
  /-- What was open could be judged, and what was complete is closed now. -/
  | answered (added : List Nat)
      (tested : ∀ v, S v → v ∈ atlas.closed ∨ ∃ complete, atlas.isComplete v = .ok complete)
      (closed : ∀ v, v ∈ atlas.closed.addAll added ↔
        v ∈ atlas.closed ∨ S v ∧ atlas.isComplete v = .ok true) :
      Judges atlas S (.ok { atlas with closed := atlas.closed.addAll added })
  /-- A decision that was open could not be judged. -/
  | refused (v : Nat) (fault : Fault) (mem : S v) (isOpen : v ∉ atlas.closed)
      (failed : atlas.isComplete v = .error fault) : Judges atlas S (.error fault)

/-- What is closed was closed before or is complete. -/
def JustClosed (atlas : Atlas) (closed : Roster Nat) : Prop :=
  ∀ v ∈ closed, v ∈ atlas.closed ∨ atlas.isComplete v = .ok true

namespace Judges

variable {atlas : Atlas} {S T : Nat → Prop} {result : Except Fault Atlas}

theorem congr (h : Judges atlas S result) (heq : ∀ v, S v ↔ T v) : Judges atlas T result := by
  have hsame : S = T := funext fun v => propext (heq v)
  exact hsame ▸ h

/-- Decisions that are closed already may be passed over. -/
theorem of_open (h : Judges atlas T result) (hopen : ∀ v, T v ↔ S v ∧ v ∉ atlas.closed) :
    Judges atlas S result := by
  cases h with
  | answered added tested closed =>
      refine answered added ?_ ?_
      · intro v hv
        by_cases hclosed : v ∈ atlas.closed
        · exact Or.inl hclosed
        · exact tested v ((hopen v).2 ⟨hv, hclosed⟩)
      · intro v
        rw [closed, hopen]
        tauto
  | refused v fault mem isOpen failed =>
      exact refused v fault ((hopen v).1 mem).1 isOpen failed

/-- Two sets of decisions, judged one after the other. -/
theorem bind {f : Atlas → Except Fault Atlas} (hfirst : Judges atlas S result)
    (hnext : ∀ closed, JustClosed atlas closed →
      Judges { atlas with closed := closed } T (f { atlas with closed := closed })) :
    Judges atlas (fun v => S v ∨ T v) (result >>= f) := by
  cases hfirst with
  | refused v fault mem isOpen failed =>
      exact refused v fault (Or.inl mem) isOpen failed
  | answered added tested closed =>
      have hjust : JustClosed atlas (atlas.closed.addAll added) :=
        fun v hv => ((closed v).1 hv).imp id And.right
      have hsecond := hnext (atlas.closed.addAll added) hjust
      rw [ok_bind]
      generalize f { atlas with closed := atlas.closed.addAll added } = answer at hsecond ⊢
      cases hsecond with
      | refused v fault mem isOpen failed =>
          exact refused v fault (Or.inr mem) (fun hv => isOpen ((closed v).2 (Or.inl hv))) failed
      | answered more testedNext closedNext =>
          have hboth := @answered atlas (fun v => S v ∨ T v) (added ++ more)
          rw [Roster.addAll_append] at hboth
          refine hboth ?_ ?_
          · intro v hv
            rcases hv with hv | hv
            · exact tested v hv
            · rcases testedNext v hv with hclosed | hanswer
              · exact (hjust v hclosed).imp id fun hcomplete => ⟨true, hcomplete⟩
              · exact Or.inr hanswer
          · intro v
            have hsame : isComplete
                { atlas with closed := atlas.closed.addAll added } v = atlas.isComplete v := rfl
            rw [closedNext, closed, hsame, or_and_right, or_assoc]

/-- **In sequence**, each step judges its own set. -/
theorem foldlM {f : Atlas → Nat → Except Fault Atlas} {S : Nat → Nat → Prop} {xs : List Nat}
    (hstep : ∀ x ∈ xs, ∀ closed, JustClosed atlas closed →
      Judges { atlas with closed := closed } (S x) (f { atlas with closed := closed } x)) :
    Judges atlas (fun v => ∃ x ∈ xs, S x v) (xs.foldlM f atlas) := by
  induction xs generalizing atlas with
  | nil => exact answered [] (by simp) (by simp)
  | cons x xs ih =>
      have hfirst := hstep x List.mem_cons_self atlas.closed fun v hv => Or.inl hv
      rw [List.foldlM_cons]
      refine (hfirst.bind fun closed hjust => ih fun y hy later hlater => ?_).congr
        fun v => (List.exists_mem_cons_iff (S · v) x xs).symm
      refine hstep y (List.mem_cons_of_mem x hy) later fun v hv => ?_
      rcases hlater v hv with hclosed | hcomplete
      · exact hjust v hclosed
      · exact Or.inr hcomplete

end Judges

/-! ## The judgements of a run -/

section

variable {atlas : Atlas} {trace : Trace}

/-- One judgement of a decision that was open at first. -/
theorem judges_judge {v : Nat} {closed : Roster Nat} (hopen : v ∉ atlas.closed)
    (hjust : JustClosed atlas closed) :
    Judges { atlas with closed := closed } (v = ·) (judge { atlas with closed := closed } v) := by
  unfold judge
  cases hv : isComplete { atlas with closed := closed } v with
  | error fault =>
      refine .refused v fault rfl (fun hclosed => ?_) hv
      rcases hjust v hclosed with hold | hcomplete
      · exact hopen hold
      · cases hv.symm.trans hcomplete
  | ok complete =>
      cases complete with
      | false =>
          refine .answered [] (fun u hu => Or.inr ⟨false, hu ▸ hv⟩) fun u => ?_
          have hopen : ¬(v = u ∧ isComplete { atlas with closed := closed } u = .ok true) := by
            rintro ⟨rfl, hcomplete⟩
            cases hv.symm.trans hcomplete
          exact (or_iff_left hopen).symm
      | true =>
          refine .answered [v] (fun u hu => Or.inr ⟨true, hu ▸ hv⟩) fun u => ?_
          rw [Roster.mem_addAll, List.mem_singleton]
          refine or_congr_right ⟨?_, fun hu => hu.1.symm⟩
          rintro rfl
          exact ⟨rfl, hv⟩

/-- The judgements around a decision go through it and its outcomes. -/
theorem judges_judgeAround (atlas : Atlas) (v : Nat) :
    Judges atlas (fun u => atlas.isDecision u = true ∧ (u = v ∨ u ∈ atlas.outcomeIds v))
      (atlas.judgeAround v) := by
  have hcandidates : ∀ u, u ∈ (v :: (atlas.outcomeIds v).filter (· != v)).filter
      (fun u => atlas.isDecision u && !atlas.isClosed u) ↔
        (atlas.isDecision u = true ∧ (u = v ∨ u ∈ atlas.outcomeIds v)) ∧
          u ∉ atlas.closed := by
    intro u
    by_cases hself : u = v
    · simp [hself, isClosed]
    · simp [hself, isClosed]
      tauto
  have hjudged := @Judges.foldlM atlas judge Eq _
    fun u hu closed hjust => judges_judge ((hcandidates u).1 hu).2 hjust
  refine Judges.of_open hjudged fun u => ?_
  rw [← hcandidates]
  simp

/-- **Judging in any order** goes through the decisions in that order and their
outcomes. -/
theorem judges_review (atlas : Atlas) (order : List Nat) :
    Judges atlas (fun u => ∃ v ∈ order, atlas.isDecision u = true ∧
      (u = v ∨ u ∈ atlas.outcomeIds v)) (atlas.review order) :=
  Judges.foldlM fun v _ closed _ => judges_judgeAround { atlas with closed := closed } v

/-- An order has the decisions of a run if its vertices are theirs. -/
theorem judges_review_of_order {order : List Nat}
    (horder : ∀ u, u ∈ order ↔ ∃ c ∈ trace, c.isDecision = true ∧
      atlas.clauses.position c = u) :
    Judges atlas (atlas.Due trace) (atlas.review order) := by
  refine (judges_review atlas order).congr fun u => ?_
  simp only [Due, horder]
  constructor
  · rintro ⟨v, ⟨c, hc, hkind, rfl⟩, hdecision, hu⟩
    exact ⟨hdecision, c, hc, hkind, hu⟩
  · rintro ⟨hdecision, c, hc, hkind, hu⟩
    exact ⟨_, ⟨c, hc, hkind, rfl⟩, hdecision, hu⟩

theorem mem_visited {u : Nat} : u ∈ atlas.visited trace ↔
    ∃ c ∈ trace, c.isDecision = true ∧ atlas.clauses.position c = u := by
  simp only [visited, Roster.mem_toList, Roster.mem_ofList, itinerary, Trace.decisions,
    List.mem_map, List.mem_filter, and_assoc]

/-- **A run** is entered first; then the decisions are judged that it visited, and
their outcomes. -/
theorem judges_addRun (atlas : Atlas) (trace : Trace) :
    Judges (atlas.extend trace) ((atlas.extend trace).Due trace) (atlas.addRun trace) :=
  judges_review_of_order fun _ => mem_visited

end

end Atlas

end Concolic
