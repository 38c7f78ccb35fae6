import Concolic.Proofs.Provenance
import Mathlib

/-!
# Outcomes as a relation

Which vertices are outcomes of which is read off the edges for vertices that something
precedes, and off the entries for all others.  Either way a decision is an outcome of
itself.  Two preceded vertices are outcomes of each other if some vertex precedes both, so
among these the relation is symmetric, and it depends on nothing but the predecessors.  An
entry is different.  It counts every decision that opened a run at its location, also one
that is preceded by now, whose own outcomes lie elsewhere.

## Main results

* `Atlas.mem_outcomeIds_iff_shared`: a common predecessor.
* `Atlas.outcomes_reflexive_symmetric`: the relation as a whole.
-/

namespace Concolic

namespace Atlas

section

variable {settings : Settings} {events : List Event} {atlas : Atlas} {u v : Nat}

/-- What counts for a preceded vertex shares a predecessor with it. -/
theorem mem_outcomeIds_iff_shared (h : (empty settings).replay events = .ok atlas)
    (hv : atlas.predecessors v ≠ []) :
    u ∈ atlas.outcomeIds v ↔ ∃ p, u ∈ atlas.successors p ∧ v ∈ atlas.successors p := by
  rw [mem_outcomeIds_of_ne_nil hv]
  refine exists_congr fun p => ?_
  rw [mem_predecessors_iff h, and_comm]

/-- Preceded vertices are outcomes of each other or not at all. -/
theorem mem_outcomeIds_comm (h : (empty settings).replay events = .ok atlas)
    (hu : atlas.predecessors u ≠ []) (hv : atlas.predecessors v ≠ []) :
    u ∈ atlas.outcomeIds v ↔ v ∈ atlas.outcomeIds u := by
  rw [mem_outcomeIds_iff_shared h hv, mem_outcomeIds_iff_shared h hu]
  exact exists_congr fun p => and_comm

/-- The outcomes of a preceded vertex depend on its predecessors only. -/
theorem outcomeIds_congr (hu : atlas.predecessors u ≠ [])
    (hsame : atlas.predecessors u = atlas.predecessors v) :
    atlas.outcomeIds u = atlas.outcomeIds v := by
  refine eq_of_pairwise_lt (pairwise_outcomeIds atlas u) (pairwise_outcomeIds atlas v) ?_
  intro s
  rw [mem_outcomeIds_of_ne_nil hu, mem_outcomeIds_of_ne_nil (hsame ▸ hu), hsame]

/-- Only vertices of the atlas are preceded. -/
theorem lt_size_of_predecessors_ne_nil (h : (empty settings).replay events = .ok atlas)
    (hv : atlas.predecessors v ≠ []) : v < atlas.size := by
  obtain ⟨p, hp⟩ := List.exists_mem_of_ne_nil _ hv
  exact (mem_successors.1 ((mem_predecessors_iff h).1 hp)).1

/-- **Outcomes as a relation.**  A decision is among its own outcomes, so it has at least
one.  Of two preceded vertices, the first is an outcome of the second exactly if the
second is one of the first.  And two vertices with the same predecessors, if these are any
at all, have the same outcomes and equally many. -/
theorem outcomes_reflexive_symmetric (h : (empty settings).replay events = .ok atlas) :
    (∀ v, atlas.isDecision v = true → ∃ siblings n, atlas.outcomes v = .ok siblings ∧
      v ∈ siblings ∧ atlas.outcomeCount v = .ok n ∧ 1 ≤ n) ∧
    (∀ u v, atlas.predecessors u ≠ [] → atlas.predecessors v ≠ [] →
      ∃ fromU fromV, atlas.outcomes u = .ok fromU ∧ atlas.outcomes v = .ok fromV ∧
        (u ∈ fromV ↔ v ∈ fromU)) ∧
    ∀ u v, atlas.predecessors u ≠ [] → atlas.predecessors u = atlas.predecessors v →
      ∃ siblings n, atlas.outcomes u = .ok siblings ∧ atlas.outcomes v = .ok siblings ∧
        atlas.outcomeCount u = .ok n ∧ atlas.outcomeCount v = .ok n := by
  refine ⟨?_, ?_, ?_⟩
  · intro v hdecision
    have hv := lt_size_of_isDecision hdecision
    have hself := self_mem_outcomeIds h hdecision
    exact ⟨_, _, outcomes_eq_ok_iff.2 ⟨hv, rfl⟩, hself,
      outcomeCount_eq_ok_iff.2 ⟨hv, rfl⟩, List.length_pos_of_mem hself⟩
  · intro u v hu hv
    exact ⟨_, _, outcomes_eq_ok_iff.2 ⟨lt_size_of_predecessors_ne_nil h hu, rfl⟩,
      outcomes_eq_ok_iff.2 ⟨lt_size_of_predecessors_ne_nil h hv, rfl⟩,
      mem_outcomeIds_comm h hu hv⟩
  · intro u v hu hsame
    have hv : v < atlas.size := lt_size_of_predecessors_ne_nil h (hsame ▸ hu)
    have heq := outcomeIds_congr hu hsame
    exact ⟨_, _, outcomes_eq_ok_iff.2 ⟨lt_size_of_predecessors_ne_nil h hu, rfl⟩,
      outcomes_eq_ok_iff.2 ⟨hv, heq.symm⟩,
      outcomeCount_eq_ok_iff.2 ⟨lt_size_of_predecessors_ne_nil h hu, rfl⟩,
      outcomeCount_eq_ok_iff.2 ⟨hv, by rw [heq]⟩⟩

end

/-- Both ways of a decision behind the input, and two runs that open at its location: with
one of these ways, and with a remark. -/
def openedInside : List Event :=
  bothWays ++ [.run [Tour.comparison true], .run [.jump 1 (.remark "restarted")]]

/-- Both ways are preceded by the input, so they are outcomes of each other.  The remark
opened its run, and has an outcome whose outcomes it does not belong to. -/
theorem outcomes_reflexive_symmetric_opened :
    ∃ atlas siblings, (empty {}).replay openedInside = .ok atlas ∧
      atlas.outcomes 1 = .ok siblings ∧ atlas.outcomes 2 = .ok siblings ∧
      1 ∈ siblings ∧ 2 ∈ siblings ∧ 1 ∈ atlas.outcomeIds 3 ∧ 3 ∉ siblings := by
  have hvalue : ((empty {}).replay openedInside).map (fun atlas =>
      (atlas.predecessors 1, atlas.predecessors 2, atlas.isDecision 1, atlas.isDecision 2,
        atlas.outcomeIds 1, atlas.outcomeIds 3)) =
        .ok ([0], [0], true, true, [1, 2], [1, 3]) := by
    rfl
  obtain ⟨atlas, h, hvalue⟩ := exists_of_map_eq_ok hvalue
  simp only [Prod.mk.injEq] at hvalue
  rcases hvalue with ⟨hone, htwo, hdecision, hdecision', hids, hopened⟩
  obtain ⟨hself, hcomm, hsame⟩ := outcomes_reflexive_symmetric h
  have hne : atlas.predecessors 1 ≠ [] := by simp [hone]
  have hne' : atlas.predecessors 2 ≠ [] := by simp [htwo]
  obtain ⟨siblings, -, hsiblings, hsiblings', -⟩ := hsame 1 2 hne (hone.trans htwo.symm)
  obtain ⟨own, -, hown, hmem, -⟩ := hself 1 hdecision
  obtain ⟨fromOne, fromTwo, hfromOne, hfromTwo, hiff⟩ := hcomm 1 2 hne hne'
  rw [hsiblings] at hown hfromOne
  rw [hsiblings'] at hfromTwo
  cases hown
  cases hfromOne
  cases hfromTwo
  refine ⟨atlas, siblings, h, hsiblings, hsiblings', hmem, hiff.1 hmem, ?_, ?_⟩
  · rw [hopened]
    exact List.mem_cons_self
  · rw [← (outcomes_eq_ok_iff.1 hsiblings).2, hids]
    decide

end Atlas

end Concolic
