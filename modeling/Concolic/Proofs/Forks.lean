import Concolic.Proofs.CleanDecisions
import Concolic.Proofs.DominatorTree
import Concolic.Proofs.Pruning
import Concolic.Proofs.Refusal

/-!
# Forks of a program

What an atlas shows of a program is settled by the clauses that can follow one another in
its runs.  A fork is a place where runs go on with one of several decisions, which are
reached from there alone.  Its arms are closed once all of them were observed.  On the way
to a clause that is reached from one other clause alone that clause is always passed, so
it dominates, and a query does not keep it.

## Main results

* `Fork.isClosed_iff`: when the arms of a fork are closed.
* `Atlas.dominates_of_sole`: what is always passed just before.
* `Atlas.exists_replay_map_run`: runs that are never refused.
-/

namespace Concolic

/-- After `before`, every run goes on with one of `arms`.  These are decisions that all
need as many outcomes as there are arms, and runs come to them from `before` alone. -/
structure Fork (events : List Event) (before : Clause) (arms : List Clause) : Prop where
  decide : ∀ arm ∈ arms, arm.isDecision = true ∧ arm.threshold = .ok (some arms.length)
  nodup : arms.Nodup
  onward : ∀ clause, Follows events before clause → clause ∈ arms
  sole : ∀ arm ∈ arms, ∀ clause, Follows events clause arm → clause = before
  unopened : ∀ arm ∈ arms, ¬Opens events arm

section

variable {settings : Settings} {events : List Event} {atlas : Atlas}
variable {before arm : Clause} {arms : List Clause}

open Atlas

/-! ## When the arms are closed -/

/-- An observed arm came after the fork. -/
theorem Fork.follows (hfork : Fork events before arms) (harm : arm ∈ arms)
    (hobserved : Observes events arm) : Follows events before arm := by
  rcases hobserved.opens_or_follows with hopens | ⟨clause, hfollows⟩
  · exact absurd hopens (hfork.unopened arm harm)
  · rw [hfork.sole arm harm clause hfollows] at hfollows
    exact hfollows

theorem Fork.mem_successors_iff (hfork : Fork events before arms)
    (h : (empty settings).replay events = .ok atlas) {p v : Nat}
    (hp : atlas.clause? p = some before) :
    v ∈ atlas.successors p ↔
      ∃ arm ∈ arms, Observes events arm ∧ atlas.clause? v = some arm := by
  rw [Atlas.mem_successors_iff h]
  constructor
  · intro hv
    rcases hv with ⟨first, second, hfollows, hfirst, hsecond⟩
    rw [hp] at hfirst
    cases hfirst
    exact ⟨second, hfork.onward second hfollows, hfollows.observes.2, hsecond⟩
  · intro hv
    rcases hv with ⟨arm, harm, hobserved, hclause⟩
    exact ⟨before, arm, hfork.follows harm hobserved, hp, hclause⟩

/-- The clauses behind a fork are the arms that were observed. -/
theorem Fork.mem_filterMap_successors_iff (hfork : Fork events before arms)
    (h : (empty settings).replay events = .ok atlas) {p : Nat}
    (hp : atlas.clause? p = some before) {clause : Clause} :
    clause ∈ (atlas.successors p).filterMap atlas.clause? ↔
      clause ∈ arms ∧ Observes events clause := by
  rw [List.mem_filterMap]
  constructor
  · intro hclause
    rcases hclause with ⟨v, hv, hvclause⟩
    obtain ⟨arm, harm, hobserved, hvarm⟩ := (hfork.mem_successors_iff h hp).1 hv
    rw [hvclause] at hvarm
    cases hvarm
    exact ⟨harm, hobserved⟩
  · intro hclause
    have hv := clause?_position h hclause.2
    exact ⟨_, (hfork.mem_successors_iff h hp).2 ⟨clause, hclause.1, hclause.2, hv⟩, hv⟩

theorem nodup_filterMap_successors (atlas : Atlas) (p : Nat) :
    ((atlas.successors p).filterMap atlas.clause?).Nodup :=
  nodup_filterMap_clause? ((pairwise_successors atlas p).imp Nat.ne_of_lt)

theorem length_filterMap_successors (atlas : Atlas) (p : Nat) :
    ((atlas.successors p).filterMap atlas.clause?).length = (atlas.successors p).length :=
  length_filterMap_clause? fun _ hv => (mem_successors.1 hv).1

/-- The vertices of a fork are a clean fork of the atlas. -/
theorem Fork.cleanFork (hfork : Fork events before arms)
    (h : (empty settings).replay events = .ok atlas) {p : Nat}
    (hp : atlas.clause? p = some before) : CleanFork atlas p arms.length where
  decide v hv := by
    obtain ⟨arm, harm, -, hclause⟩ := (hfork.mem_successors_iff h hp).1 hv
    exact ⟨arm, hclause, hfork.decide arm harm⟩
  few := by
    rw [← length_filterMap_successors]
    exact (nodup_filterMap_successors atlas p).length_le_of_subset fun clause hclause =>
      ((hfork.mem_filterMap_successors_iff h hp).1 hclause).1
  sole v hv := by
    obtain ⟨arm, harm, -, hclause⟩ := (hfork.mem_successors_iff h hp).1 hv
    refine eq_of_pairwise_lt (pairwise_ascending _ _) (List.pairwise_singleton _ p) ?_
    intro u
    rw [mem_predecessors_iff h, List.mem_singleton]
    constructor
    · intro hu
      obtain ⟨first, second, hfollows, hfirst, hsecond⟩ := (Atlas.mem_successors_iff h).1 hu
      rw [hclause] at hsecond
      cases hsecond
      rw [hfork.sole arm harm first hfollows] at hfirst
      exact eq_of_clause? hfirst hp
    · rintro rfl
      exact hv
  unopened v hv hentry := by
    obtain ⟨arm, harm, -, hclause⟩ := (hfork.mem_successors_iff h hp).1 hv
    obtain ⟨opening, hopens, hopening⟩ := (mem_entries_iff h).1 (mem_entryList.1 hentry).2
    rw [hclause] at hopening
    cases hopening
    exact hfork.unopened arm harm hopens

/-- **When the arms of a fork are closed**: once all of them were observed. -/
theorem Fork.isClosed_iff (hfork : Fork events before arms)
    (h : (empty settings).replay events = .ok atlas)
    (hruns : ∀ event ∈ events, ∃ trace, event = .run trace) (harm : arm ∈ arms) {v : Nat}
    (hv : atlas.clause? v = some arm) :
    atlas.isClosed v = true ↔ ∀ other ∈ arms, Observes events other := by
  have hobserved : Observes events arm := (mem_clauses_iff h).1 (clause?_eq_some_iff.1 hv).1
  have hp := clause?_position h (hfork.follows harm hobserved).observes.1
  have hv' := (hfork.mem_successors_iff h hp).2 ⟨arm, harm, hobserved, hv⟩
  rw [(hfork.cleanFork h hp).closesTogether h hruns v hv', ← length_filterMap_successors]
  have hnodup := nodup_filterMap_successors atlas (atlas.clauses.position before)
  constructor
  · intro hlength other hother
    have hsubperm : List.Subperm _ arms := hnodup.subperm fun clause hclause =>
      ((hfork.mem_filterMap_successors_iff h hp).1 hclause).1
    have hperm := hsubperm.perm_of_length_le (Nat.le_of_eq hlength.symm)
    exact ((hfork.mem_filterMap_successors_iff h hp).1 (hperm.mem_iff.2 hother)).2
  · intro hall
    refine ((List.perm_ext_iff_of_nodup hnodup hfork.nodup).2 ?_).length_eq
    intro clause
    rw [hfork.mem_filterMap_successors_iff h hp]
    exact and_iff_left_of_imp (hall clause)

namespace Atlas

/-! ## What is always passed -/

/-- The origin opened a run. -/
theorem opens_of_origin? (h : (empty settings).replay events = .ok atlas) {v : Nat}
    {clause : Clause} (horigin : atlas.origin? = some v) (hv : atlas.clause? v = some clause) :
    Opens events clause := by
  rw [origin?_replay h] at horigin
  obtain ⟨first, hfirst, hfound⟩ := Option.bind_eq_some_iff.1 horigin
  obtain ⟨trace, htrace, hhead⟩ := List.exists_of_findSome?_eq_some hfirst
  rw [find?_eq_some_iff, hv] at hfound
  cases hfound
  exact ⟨trace, htrace, hhead⟩

/-- **What is always passed just before**: the clause that alone comes before another one
dominates it. -/
theorem dominates_of_sole (h : (empty settings).replay events = .ok atlas) {u v : Nat}
    {clause : Clause} (hwithin : atlas.Within v) (hu : atlas.clause? u = some before)
    (hv : atlas.clause? v = some clause) (hopens : ¬Opens events clause)
    (hsole : ∀ other, Follows events other clause → other = before) :
    atlas.dominates u v = true := by
  refine (dominates_of_within_iff hwithin).2 ?_
  intro back hroute
  cases hroute with
  | origin horigin => exact absurd (opens_of_origin? h horigin hv) hopens
  | step hback hstep =>
      obtain ⟨first, second, hfollows, hfirst, hsecond⟩ := (mem_successors_iff h).1 hstep
      rw [hv] at hsecond
      cases hsecond
      rw [hsole first hfollows] at hfirst
      rw [eq_of_clause? hu hfirst]
      exact List.mem_cons_of_mem _ List.mem_cons_self

theorem dominates_trans {a b c : Nat} (hab : atlas.dominates a b = true)
    (hbc : atlas.dominates b c = true) : atlas.dominates a c = true :=
  dominates_eq_true_iff_flow.2
    ((dominates_eq_true_iff_flow.1 hab).trans (dominates_eq_true_iff_flow.1 hbc))

/-- What dominates something is within reach itself. -/
theorem within_of_dominates {a b : Nat} (hab : atlas.dominates a b = true) : atlas.Within a :=
  within_iff_reachable.2 (dominates_eq_true_iff_flow.1 hab).reachable_left

/-- Nothing is kept of a path on which all but the target is always passed. -/
theorem ancestors_eq_nil {target limit : Nat} {path : Path}
    (hpath : ∀ v ∈ atlas.itinerary path, v = target ∨ atlas.dominates v target = true) :
    atlas.ancestors target path limit = [] := by
  have hnone : ((atlas.itinerary path).reverse.filter fun v =>
      v != target && !atlas.dominates v target) = [] := by
    rw [List.filter_eq_nil_iff]
    intro v hv
    rcases hpath v (List.mem_reverse.1 hv) with rfl | hdominates
    · simp
    · simp [hdominates]
  show (Roster.ofList ((atlas.itinerary path).reverse.filter fun v =>
    v != target && !atlas.dominates v target)).toList.take limit = []
  rw [hnone]
  exact List.take_nil

/-! ## Runs that are never refused -/

/-- **Runs that are never refused**: those without a table that has no keys. -/
theorem exists_replay_map_run (settings : Settings) {traces : List Trace}
    (hkeyed : ∀ trace ∈ traces, ∀ clause ∈ trace, ∀ low high, ¬clause.Keyless low high) :
    ∃ atlas, (empty settings).replay (traces.map .run) = .ok atlas := by
  induction traces using List.reverseRecOn with
  | nil => exact ⟨_, rfl⟩
  | append_singleton traces trace ih =>
      obtain ⟨atlas, hatlas⟩ := ih fun other hother =>
        hkeyed other (List.mem_append_left _ hother)
      cases hrun : atlas.addRun trace with
      | ok next =>
          refine ⟨next, ?_⟩
          rw [List.map_append]
          exact replay_append_eq_ok.2 ⟨atlas, hatlas, hrun⟩
      | error fault =>
          obtain ⟨clause, hclause, low, high, hkeyless⟩ :=
            (refusedForTables_addRun hatlas trace).refused_iff.1 ⟨fault, hrun⟩
          exact absurd hkeyless (hkeyed trace (by simp) clause hclause low high)

end Atlas

end

end Concolic
