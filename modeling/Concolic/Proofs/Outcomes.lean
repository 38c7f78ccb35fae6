import Concolic.Proofs.History
import Mathlib.Data.List.Nodup

/-!
# The outcomes of a decision

The outcomes of a decision with predecessors are whatever followed one of its
predecessors; those of a decision without any are the decisions at its location
that opened a run.  Either way a decision is one of its own outcomes.  A run
that does not visit a decision leaves its predecessors alone, so it can only
add outcomes to it, and among them only one kind of decision escapes the
judgement that follows: an entry that has predecessors, at the location of a
decision that has none.

## Main results

* `Atlas.mem_outcomeIds_iff`: the outcomes of a decision, said of the history.
* `Atlas.self_mem_outcomeIds`: an observed decision is an outcome of itself.
* `Atlas.isComplete_iff`: what completes a decision.
* `Atlas.Grows.due_of_new_outcome`: a new decision among the outcomes makes
  the decision due.
-/

namespace Concolic

/-- Two ascending lists with the same members are the same. -/
theorem eq_of_pairwise_lt {xs ys : List Nat} (hxs : xs.Pairwise (· < ·))
    (hys : ys.Pairwise (· < ·)) (h : ∀ x, x ∈ xs ↔ x ∈ ys) : xs = ys := by
  have hperm : xs.Perm ys := (List.perm_ext_iff_of_nodup
    (hxs.imp Nat.ne_of_lt) (hys.imp Nat.ne_of_lt)).2 h
  refine hperm.eq_of_pairwise ?_ hxs hys
  intro a b _ _ hab hba
  omega

/-- The clauses that count as outcomes of the decision that `clause` observes:
what followed something that `clause` followed too, or, if it followed nothing,
the decisions at its location that opened runs. -/
def outcomesOf (events : List Event) (clause : Clause) : Set Clause :=
  {outcome | (∃ before, Follows events before clause ∧ Follows events before outcome) ∨
    (¬∃ before, Follows events before clause) ∧ Opens events outcome ∧
      outcome.isDecision = true ∧ outcome.location = clause.location}

theorem observes_of_mem_outcomesOf {events : List Event} {clause outcome : Clause}
    (h : outcome ∈ outcomesOf events clause) : Observes events outcome := by
  rcases h with ⟨before, -, hfollows⟩ | ⟨-, hopens, -⟩
  · exact hfollows.observes.2
  · exact hopens.observes

namespace Atlas

section

variable {atlas : Atlas}

/-! ## Vertices and their clauses -/

theorem exists_clause? {v : Nat} (h : v < atlas.size) :
    ∃ clause, atlas.clause? v = some clause :=
  ⟨_, List.getElem?_eq_getElem h⟩

/-- Distinct vertices have distinct clauses. -/
theorem eq_of_clause? {u v : Nat} {clause : Clause} (hu : atlas.clause? u = some clause)
    (hv : atlas.clause? v = some clause) : u = v :=
  (clause?_eq_some_iff.1 hu).2.symm.trans (clause?_eq_some_iff.1 hv).2

theorem isDecision_of_clause? {v : Nat} {clause : Clause}
    (h : atlas.clause? v = some clause) : atlas.isDecision v = clause.isDecision := by
  rw [isDecision, h, Option.any_some]

theorem exists_clause?_of_isDecision {v : Nat} (h : atlas.isDecision v = true) :
    ∃ clause, atlas.clause? v = some clause ∧ clause.isDecision = true :=
  (Option.any_eq_true _ _).1 h

/-- Distinct vertices are told apart by their clauses. -/
theorem nodup_filterMap_clause? {ids : List Nat} (h : ids.Nodup) :
    (ids.filterMap atlas.clause?).Nodup :=
  h.filterMap fun _ _ _ hu hv => eq_of_clause? hu hv

/-- Every vertex has a clause. -/
theorem length_filterMap_clause? {ids : List Nat} (h : ∀ v ∈ ids, v < atlas.size) :
    (ids.filterMap atlas.clause?).length = ids.length := by
  rw [List.filterMap_length_eq_length]
  intro v hv
  obtain ⟨clause, hclause⟩ := exists_clause? (h v hv)
  rw [hclause]
  rfl

theorem mem_entryList {v : Nat} :
    v ∈ atlas.entryList ↔ v < atlas.size ∧ v ∈ atlas.entries :=
  mem_ascending

/-! ## Outcomes -/

theorem mem_outcomeIds_of_ne_nil {v s : Nat} (h : atlas.predecessors v ≠ []) :
    s ∈ atlas.outcomeIds v ↔ ∃ p ∈ atlas.predecessors v, s ∈ atlas.successors p := by
  unfold outcomeIds
  split
  · next hnil => exact absurd hnil h
  · rw [mem_ascending, List.mem_flatMap]
    refine and_iff_right_of_imp ?_
    intro hs
    rcases hs with ⟨p, -, hs⟩
    exact (mem_successors.1 hs).1

theorem mem_outcomeIds_of_nil {v s : Nat} {clause : Clause}
    (h : atlas.predecessors v = []) (hv : atlas.clause? v = some clause) :
    s ∈ atlas.outcomeIds v ↔ s ∈ atlas.entries ∧ ∃ opening,
      atlas.clause? s = some opening ∧ opening.isDecision = true ∧
        opening.location = clause.location := by
  simp only [outcomeIds, h, List.mem_filter, Bool.and_eq_true, beq_iff_eq, hv,
    mem_entryList]
  constructor
  · intro hs
    rcases hs with ⟨⟨-, hentry⟩, hdecision, hlocation⟩
    obtain ⟨opening, hopening, hkind⟩ := exists_clause?_of_isDecision hdecision
    rw [hopening] at hlocation
    exact ⟨hentry, opening, hopening, hkind, Option.some.inj hlocation⟩
  · intro hs
    rcases hs with ⟨hentry, opening, hopening, hkind, hlocation⟩
    refine ⟨⟨lt_size_of_clause? hopening, hentry⟩, ?_, ?_⟩
    · rw [isDecision_of_clause? hopening, hkind]
    · rw [hopening, Option.map_some, Option.map_some, hlocation]

theorem pairwise_outcomeIds (atlas : Atlas) (v : Nat) :
    (atlas.outcomeIds v).Pairwise (· < ·) := by
  unfold outcomeIds
  split
  · exact (pairwise_ascending _ _).sublist List.filter_sublist
  · exact pairwise_ascending _ _

theorem lt_size_of_mem_outcomeIds {v s : Nat} (h : s ∈ atlas.outcomeIds v) :
    s < atlas.size := by
  unfold outcomeIds at h
  split at h
  · exact (mem_entryList.1 (List.mem_filter.1 h).1).1
  · exact (mem_ascending.1 h).1

theorem outcomeCount_eq_ok_iff {v n : Nat} :
    atlas.outcomeCount v = .ok n ↔ v < atlas.size ∧ (atlas.outcomeIds v).length = n := by
  unfold outcomeCount outcomes checked
  split
  · next hv => simp [bind, Except.bind, pure, Except.pure, hv]
  · next hv => simp [bind, Except.bind, hv]

/-! ## Judging -/

/-- A decision is complete when its clause fixes a number of outcomes and that
many were seen. -/
theorem isComplete_iff {v : Nat} :
    atlas.isComplete v = .ok true ↔ ∃ clause n, atlas.clause? v = some clause ∧
      clause.threshold = .ok (some n) ∧ (atlas.outcomeIds v).length = n := by
  unfold isComplete
  cases hv : atlas.clause? v with
  | none => simp
  | some clause =>
      cases hthreshold : clause.threshold with
      | error fault => simp [bind, Except.bind, hthreshold]
      | ok count =>
          cases count with
          | none => simp [bind, Except.bind, pure, Except.pure, hthreshold]
          | some n =>
              have hflip : (atlas.outcomeIds v).length = n ↔
                  n = (atlas.outcomeIds v).length := eq_comm
              simpa [bind, Except.bind, pure, Except.pure, hthreshold] using hflip

end

/-! ## Outcomes and the history -/

section

variable {settings : Settings} {events : List Event} {atlas : Atlas}

theorem mem_entryList_iff (h : (empty settings).replay events = .ok atlas) {v : Nat}
    {clause : Clause} (hv : atlas.clause? v = some clause) :
    v ∈ atlas.entryList ↔ Opens events clause := by
  rw [mem_entryList, mem_entries_iff h]
  constructor
  · intro hentry
    obtain ⟨-, opening, hopens, hopening⟩ := hentry
    rwa [Option.some.inj (hv.symm.trans hopening)]
  · intro hopens
    exact ⟨lt_size_of_clause? hv, clause, hopens, hv⟩

theorem mem_successors_iff_follows (h : (empty settings).replay events = .ok atlas)
    {u v : Nat} {first second : Clause} (hu : atlas.clause? u = some first)
    (hv : atlas.clause? v = some second) :
    v ∈ atlas.successors u ↔ Follows events first second := by
  rw [mem_successors_iff h]
  constructor
  · intro hedge
    obtain ⟨one, other, hfollows, hone, hother⟩ := hedge
    rwa [Option.some.inj (hu.symm.trans hone), Option.some.inj (hv.symm.trans hother)]
  · intro hfollows
    exact ⟨first, second, hfollows, hu, hv⟩

theorem predecessors_eq_nil_iff (h : (empty settings).replay events = .ok atlas) {v : Nat}
    {clause : Clause} (hv : atlas.clause? v = some clause) :
    atlas.predecessors v = [] ↔ ¬∃ before, Follows events before clause := by
  rw [List.eq_nil_iff_forall_not_mem]
  constructor
  · intro hnone hfollows
    obtain ⟨before, hfollows⟩ := hfollows
    have hbefore := clause?_position h hfollows.observes.1
    refine hnone (atlas.clauses.position before) ?_
    rw [mem_predecessors_iff h, mem_successors_iff_follows h hbefore hv]
    exact hfollows
  · intro hnone p hp
    obtain ⟨before, hbefore⟩ := exists_clause? (mem_predecessors.1 hp).1
    rw [mem_predecessors_iff h, mem_successors_iff_follows h hbefore hv] at hp
    exact hnone ⟨before, hp⟩

/-- A vertex without predecessors opened a run. -/
theorem mem_entries_of_predecessors_eq_nil
    (h : (empty settings).replay events = .ok atlas) {v : Nat} {clause : Clause}
    (hv : atlas.clause? v = some clause) (hnil : atlas.predecessors v = []) :
    v ∈ atlas.entries := by
  have hobserved : Observes events clause :=
    (mem_clauses_iff h).1 (clause?_eq_some_iff.1 hv).1
  have hopens : Opens events clause :=
    hobserved.opens_or_follows.resolve_right ((predecessors_eq_nil_iff h hv).1 hnil)
  exact (mem_entries_iff h).2 ⟨clause, hopens, hv⟩

/-- **Outcomes**, said of the history. -/
theorem mem_outcomeIds_iff (h : (empty settings).replay events = .ok atlas) {v s : Nat}
    {clause outcome : Clause} (hv : atlas.clause? v = some clause)
    (hs : atlas.clause? s = some outcome) :
    s ∈ atlas.outcomeIds v ↔ outcome ∈ outcomesOf events clause := by
  have hnone := predecessors_eq_nil_iff h hv
  by_cases hnil : atlas.predecessors v = []
  · have hopening : (∃ opening, atlas.clause? s = some opening ∧
        opening.isDecision = true ∧ opening.location = clause.location) ↔
          outcome.isDecision = true ∧ outcome.location = clause.location := by
      rw [hs]
      simp
    have hentry : s ∈ atlas.entries ↔ Opens events outcome := by
      rw [← mem_entryList_iff h hs, mem_entryList]
      exact (and_iff_right (lt_size_of_clause? hs)).symm
    have hnever := hnone.1 hnil
    rw [mem_outcomeIds_of_nil hnil hv, hopening, hentry]
    refine ⟨fun hopens => Or.inr ⟨hnever, hopens⟩, fun houtcome => ?_⟩
    rcases houtcome with ⟨before, hfollows, -⟩ | ⟨-, hopens⟩
    · exact absurd ⟨before, hfollows⟩ hnever
    · exact hopens
  · rw [mem_outcomeIds_of_ne_nil hnil]
    constructor
    · intro hshared
      obtain ⟨p, hp, hps⟩ := hshared
      obtain ⟨before, hbefore⟩ := exists_clause? (mem_predecessors.1 hp).1
      rw [mem_predecessors_iff h, mem_successors_iff_follows h hbefore hv] at hp
      rw [mem_successors_iff_follows h hbefore hs] at hps
      exact Or.inl ⟨before, hp, hps⟩
    · intro houtcome
      rcases houtcome with ⟨before, hfollows, hother⟩ | ⟨hnever, -⟩
      · have hbefore := clause?_position h hfollows.observes.1
        refine ⟨atlas.clauses.position before, ?_, ?_⟩
        · rwa [mem_predecessors_iff h, mem_successors_iff_follows h hbefore hv]
        · rwa [mem_successors_iff_follows h hbefore hs]
      · exact absurd (hnone.2 hnever) hnil

theorem self_mem_outcomeIds (h : (empty settings).replay events = .ok atlas) {v : Nat}
    (hdecision : atlas.isDecision v = true) : v ∈ atlas.outcomeIds v := by
  obtain ⟨clause, hv, hkind⟩ := exists_clause?_of_isDecision hdecision
  rw [mem_outcomeIds_iff h hv hv]
  rcases ((mem_clauses_iff h).1 (clause?_eq_some_iff.1 hv).1).opens_or_follows with
    hopens | ⟨before, hfollows⟩
  · by_cases hfollows : ∃ before, Follows events before clause
    · obtain ⟨before, hfollows⟩ := hfollows
      exact Or.inl ⟨before, hfollows, hfollows⟩
    · exact Or.inr ⟨hfollows, hopens, hkind, rfl⟩
  · exact Or.inl ⟨before, hfollows, hfollows⟩

end

/-! ## What a run adds to a decision that it does not visit -/

namespace Grows

section

variable {settings : Settings} {events : List Event} {atlas next : Atlas} {trace : Trace}
variable (hatlas : (empty settings).replay events = .ok atlas)
variable (hgrows : Grows atlas trace next)

include hgrows

theorem size_le : atlas.size ≤ next.size := by
  show atlas.clauses.toList.length ≤ next.clauses.toList.length
  rw [hgrows.clauses]
  exact (Roster.prefix_addAll atlas.clauses trace).length_le

theorem mem_successors_mono {u v : Nat} (h : v ∈ atlas.successors u) :
    v ∈ next.successors u := by
  obtain ⟨hv, hedge⟩ := mem_successors.1 h
  exact mem_successors.2 ⟨Nat.lt_of_lt_of_le hv hgrows.size_le,
    hgrows.mem_edges.2 (Or.inl hedge)⟩

/-- Every decision that a run visits is due. -/
theorem due_of_mem {v : Nat} {clause : Clause} (hv : next.clause? v = some clause)
    (hkind : clause.isDecision = true) (hclause : clause ∈ trace) :
    next.Due trace v := by
  have hdecision : next.isDecision v = true := by rw [isDecision_of_clause? hv, hkind]
  have hposition : next.clauses.position clause = v :=
    (hgrows.position_iff hclause).2 hv
  exact ⟨hdecision, clause, hclause, hkind, Or.inl hposition.symm⟩

/-- A clause that the run did not observe had its vertex before. -/
theorem clause?_of_not_mem {v : Nat} {clause : Clause}
    (hv : next.clause? v = some clause) (hclause : clause ∉ trace) :
    atlas.clause? v = some clause := by
  have hmem := hgrows.mem_clauses.1 (clause?_eq_some_iff.1 hv).1
  exact (hgrows.clause?_iff (hmem.resolve_right hclause)).1 hv

include hatlas

/-- A vertex that the run did not visit keeps its predecessors. -/
theorem predecessors_of_not_mem {v : Nat} {clause : Clause}
    (hv : next.clause? v = some clause) (hclause : clause ∉ trace) :
    next.predecessors v = atlas.predecessors v := by
  refine eq_of_pairwise_lt (pairwise_ascending _ _) (pairwise_ascending _ _) ?_
  intro u
  rw [mem_predecessors, mem_predecessors, hgrows.mem_edges]
  constructor
  · intro hu
    rcases hu with ⟨-, hedge | ⟨first, second, hpair, -, hsecond⟩⟩
    · obtain ⟨first, second, -, hfirst, -⟩ := (mem_edges_iff hatlas).1 hedge
      exact ⟨lt_size_of_clause? hfirst, hedge⟩
    · rw [hv] at hsecond
      cases hsecond
      exact absurd (hpair.mem (by simp)) hclause
  · intro hu
    exact ⟨Nat.lt_of_lt_of_le hu.1 hgrows.size_le, Or.inl hu.2⟩

theorem mem_outcomeIds_mono {v s : Nat} {clause : Clause}
    (hv : next.clause? v = some clause) (hclause : clause ∉ trace)
    (hs : s ∈ atlas.outcomeIds v) : s ∈ next.outcomeIds v := by
  have hpredecessors := hgrows.predecessors_of_not_mem hatlas hv hclause
  by_cases hnil : atlas.predecessors v = []
  · rw [mem_outcomeIds_of_nil hnil (hgrows.clause?_of_not_mem hv hclause)] at hs
    rcases hs with ⟨hentry, opening, hopening, hkind⟩
    rw [mem_outcomeIds_of_nil (hpredecessors.trans hnil) hv]
    exact ⟨hgrows.mem_entries.2 (Or.inl hentry), opening,
      hgrows.clause?_of_clause? hopening, hkind⟩
  · rw [mem_outcomeIds_of_ne_nil hnil] at hs
    rcases hs with ⟨p, hp, hs⟩
    rw [mem_outcomeIds_of_ne_nil (hpredecessors.symm ▸ hnil), hpredecessors]
    exact ⟨p, hp, hgrows.mem_successors_mono hs⟩

/-- An outcome that the run added was visited by the run. -/
theorem exists_mem_of_new_outcome {v s : Nat} {clause : Clause}
    (hv : next.clause? v = some clause) (hclause : clause ∉ trace)
    (hs : s ∈ next.outcomeIds v) (hnew : s ∉ atlas.outcomeIds v) :
    ∃ added ∈ trace, next.clause? s = some added := by
  have hpredecessors := hgrows.predecessors_of_not_mem hatlas hv hclause
  by_cases hnil : next.predecessors v = []
  · rw [mem_outcomeIds_of_nil hnil hv] at hs
    rcases hs with ⟨hentry, opening, hopening, hkind⟩
    rcases hgrows.mem_entries.1 hentry with hold | ⟨first, hhead, hfirst⟩
    · -- an old entry has its clause from before, so it was an outcome before
      obtain ⟨other, -, hother⟩ := (mem_entries_iff hatlas).1 hold
      have heq : opening = other :=
        Option.some.inj (hopening.symm.trans (hgrows.clause?_of_clause? hother))
      refine absurd ?_ hnew
      rw [mem_outcomeIds_of_nil (hpredecessors.symm.trans hnil)
        (hgrows.clause?_of_not_mem hv hclause)]
      exact ⟨hold, opening, heq ▸ hother, hkind⟩
    · exact ⟨first, List.mem_of_head? hhead, hfirst⟩
  · rw [mem_outcomeIds_of_ne_nil hnil] at hs
    rcases hs with ⟨p, hp, hs⟩
    have hedge := hgrows.mem_edges.1 (mem_successors.1 hs).2
    rcases hedge with hold | ⟨first, second, hpair, -, hsecond⟩
    · refine absurd ?_ hnew
      obtain ⟨first, second, -, -, hsecond⟩ := (mem_edges_iff hatlas).1 hold
      rw [mem_outcomeIds_of_ne_nil (hpredecessors ▸ hnil), ← hpredecessors]
      exact ⟨p, hp, mem_successors.2 ⟨lt_size_of_clause? hsecond, hold⟩⟩
    · exact ⟨second, hpair.mem (by simp), hsecond⟩

end

/-- **New outcomes are noticed.**  If a run adds a decision to the outcomes of
`v`, then `v` is due; a `v` without predecessors takes an addition without
predecessors. -/
theorem due_of_new_outcome {settings : Settings} {events : List Event}
    {atlas next : Atlas} {trace : Trace}
    (hatlas : (empty settings).replay events = .ok atlas)
    (hnext : (empty settings).replay (events ++ [.run trace]) = .ok next)
    (hgrows : Grows atlas trace next) {v s : Nat} (hdecision : next.isDecision v = true)
    (hs : s ∈ next.outcomeIds v) (hnew : s ∉ atlas.outcomeIds v)
    (hkind : next.isDecision s = true)
    (hpredecessors : next.predecessors v ≠ [] ∨ next.predecessors s = []) :
    next.Due trace v := by
  obtain ⟨clause, hv, hvkind⟩ := exists_clause?_of_isDecision hdecision
  by_cases hclause : clause ∈ trace
  · exact hgrows.due_of_mem hv hvkind hclause
  · obtain ⟨added, hadded, hsadded⟩ :=
      hgrows.exists_mem_of_new_outcome hatlas hv hclause hs hnew
    have hposition : next.clauses.position added = s :=
      (hgrows.position_iff hadded).2 hsadded
    have haddedKind : added.isDecision = true := by
      rw [← isDecision_of_clause? hsadded]
      exact hkind
    refine ⟨hdecision, added, hadded, haddedKind, Or.inr ?_⟩
    rw [hposition]
    by_cases hnil : next.predecessors v = []
    · -- both are entries at one location
      have hsnil := hpredecessors.resolve_left (fun hne => hne hnil)
      rw [mem_outcomeIds_of_nil hnil hv] at hs
      rcases hs with ⟨-, opening, hopening, -, hlocation⟩
      rw [mem_outcomeIds_of_nil hsnil hopening]
      exact ⟨mem_entries_of_predecessors_eq_nil hnext hv hnil, clause, hv, hvkind,
        hlocation.symm⟩
    · -- both follow one predecessor
      rw [mem_outcomeIds_of_ne_nil hnil] at hs
      rcases hs with ⟨p, hp, hs⟩
      have hps : p ∈ next.predecessors s := (mem_predecessors_iff hnext).2 hs
      rw [mem_outcomeIds_of_ne_nil (List.ne_nil_of_mem hps)]
      exact ⟨p, hps, (mem_predecessors_iff hnext).1 hp⟩

end Grows

end Atlas

end Concolic
