import Concolic.Proofs.Arrival
import Concolic.Proofs.Closing

/-!
# A run that comes again

A run leaves its marks on an atlas: vertices, edges, an entry, its paths with
itself as their latest run, and the decisions that it completed.  If all of them
are there, then the run has nothing to add, and adding it changes nothing at all,
not even an order of arrival.  Right after a run all its marks are there.  This
needs the judgement to be made on the final edges.  Later they need not be there
any more: another run may have taken the same path or added an outcome.

## Main results

* `Atlas.addRun_eq_self_iff`: which runs change nothing.
* `Atlas.addRun_again`: a run that comes again at once is one of them.
-/

namespace Concolic

/-! ## What is there already -/

/-- Offering members to a roster changes nothing. -/
theorem Roster.addAll_of_forall_mem {α : Type} [DecidableEq α] {roster : Roster α}
    {xs : List α} (h : ∀ x ∈ xs, x ∈ roster) : roster.addAll xs = roster := by
  induction xs with
  | nil => rfl
  | cons x xs ih =>
      rw [addAll_cons, add_of_mem (h x List.mem_cons_self)]
      exact ih fun y hy => h y (List.mem_cons_of_mem x hy)

namespace Records

theorem eq_of_entries {left right : Records} (h : left.entries = right.entries) :
    left = right := by
  cases left
  cases right
  cases h
  rfl

/-- To give a path the trace that it has changes nothing. -/
theorem record_of_mem {records : Records} {path : Path} {trace : Trace}
    (h : (path, trace) ∈ records.entries) : (records.record path trace).2 = records := by
  have hpath : path ∈ records.paths := List.mem_map_of_mem h
  have hsame : ∀ entry ∈ records.entries, rebind path trace entry = id entry := by
    intro entry hentry
    by_cases heq : entry.1 = path
    · rw [rebind, if_pos heq]
      exact List.inj_on_of_nodup_map records.nodup h hentry heq.symm
    · exact if_neg heq
  refine eq_of_entries ?_
  rw [record, dif_pos hpath]
  exact (List.map_congr_left hsame).trans (List.map_id _)

theorem recordAll_of_forall_mem {records : Records} {paths : List Path} {trace : Trace}
    (h : ∀ path ∈ paths, (path, trace) ∈ records.entries) :
    records.recordAll paths trace = records := by
  induction paths with
  | nil => rfl
  | cons path paths ih =>
      rw [recordAll, List.foldl_cons, record_of_mem (h path List.mem_cons_self)]
      exact ih fun other hother => h other (List.mem_cons_of_mem path hother)

end Records

namespace Atlas

section

variable {atlas next : Atlas} {trace : Trace}

/-! ## The marks of a run -/

/-- All the marks of a run are on the map. -/
structure Holds (atlas : Atlas) (trace : Trace) : Prop where
  clauses : ∀ clause ∈ trace, clause ∈ atlas.clauses
  edges : ∀ edge ∈ (atlas.itinerary trace).zip (atlas.itinerary trace).tail,
    edge ∈ atlas.edges
  entries : ∀ v ∈ (atlas.itinerary trace).take 1, v ∈ atlas.entries
  records : ∀ path ∈ trace.decisions.stages, (path, trace) ∈ atlas.records.entries
  depth : trace.depth ≤ atlas.depth
  judged : ∀ v, atlas.Due trace v → v ∈ atlas.closed ∨
    ∃ complete, atlas.isComplete v = .ok complete
  closed : ∀ v, atlas.Due trace v → atlas.isComplete v = .ok true → v ∈ atlas.closed

/-- Right after a run its marks are there. -/
theorem Grows.holds (h : Grows atlas trace next) : Holds next trace where
  clauses clause hclause := h.mem_clauses.2 (Or.inr hclause)
  edges edge hedge := by
    rw [h.edges]
    exact Roster.mem_addAll.2 (Or.inr hedge)
  entries v hv := by
    rw [h.entries]
    exact Roster.mem_addAll.2 (Or.inr hv)
  records path hpath := by
    rw [h.records]
    exact Records.mem_entries_recordAll.2 (Or.inl ⟨hpath, rfl⟩)
  depth := by
    rw [h.depth]
    exact Nat.le_max_right _ _
  judged v hv := (h.judged v hv).imp (fun hold => (h.closed v).2 (Or.inl hold)) id
  closed v hv hcomplete := (h.closed v).2 (Or.inr ⟨hv, hcomplete⟩)

/-- A run whose marks are there has nothing to enter. -/
theorem Holds.extend_eq (h : Holds atlas trace) : atlas.extend trace = atlas := by
  have hclauses := Roster.addAll_of_forall_mem h.clauses
  have hedges := Roster.addAll_of_forall_mem h.edges
  have hentries := Roster.addAll_of_forall_mem h.entries
  have hrecords := Records.recordAll_of_forall_mem h.records
  have hdepth := Nat.max_eq_left h.depth
  rw [itinerary] at hedges hentries
  simp only [extend, hclauses, hedges, hentries, hrecords, hdepth]

/-- **Which runs change nothing**: those whose marks are there. -/
theorem addRun_eq_self_iff : atlas.addRun trace = .ok atlas ↔ Holds atlas trace := by
  constructor
  · intro h
    exact (grows_of_addRun h).holds
  · intro h
    have hjudges := judges_addRun atlas trace
    rw [h.extend_eq] at hjudges
    generalize atlas.addRun trace = result at hjudges ⊢
    cases hjudges with
    | refused v fault mem isOpen failed =>
        rcases h.judged v mem with hclosed | ⟨complete, hcomplete⟩
        · exact absurd hclosed isOpen
        · cases failed.symm.trans hcomplete
    | answered added tested closed =>
        have hadded : ∀ v ∈ added, v ∈ atlas.closed := by
          intro v hv
          rcases (closed v).1 (Roster.mem_addAll.2 (Or.inr hv)) with hold | ⟨hdue, hcomplete⟩
          · exact hold
          · exact h.closed v hdue hcomplete
        rw [Roster.addAll_of_forall_mem hadded]

/-- **A run that comes again at once changes nothing.**  It succeeds as it did
before, and every part of the atlas stays as it is: the vertices and their
numbers, the edges, the entries, the recorded paths with their order and their
runs, the depth, the closed decisions, and with them every answer that is read
off the map, such as dominance. -/
theorem addRun_again (h : atlas.addRun trace = .ok next) : next.addRun trace = .ok next :=
  addRun_eq_self_iff.2 (grows_of_addRun h).holds

end

/-- The run that completes the first decision, once more. -/
theorem addRun_again_other_way :
    ∃ atlas next, (empty {}).replay [.run (decidingRun true)] = .ok atlas ∧
      atlas.addRun (decidingRun false) = .ok next ∧ next ≠ atlas ∧
      next.closedList = [1, 2] ∧ next.addRun (decidingRun false) = .ok next := by
  have hvalue : ((empty {}).replay [.run (decidingRun true)]).map closedList = .ok [] := by
    rfl
  have hnextValue : ((empty {}).replay ([.run (decidingRun true)] ++
      [.run (decidingRun false)])).map closedList = .ok [1, 2] := by
    rfl
  obtain ⟨atlas, h, hopen⟩ := exists_of_map_eq_ok hvalue
  obtain ⟨next, hreplay, hclosed⟩ := exists_of_map_eq_ok hnextValue
  obtain ⟨before, hbefore, hnext⟩ := replay_append_eq_ok.1 hreplay
  cases h.symm.trans hbefore
  refine ⟨atlas, next, h, hnext, ?_, hclosed, addRun_again hnext⟩
  intro heq
  rw [heq, hopen] at hclosed
  cases hclosed

end Atlas

end Concolic
