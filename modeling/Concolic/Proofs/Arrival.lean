import Concolic.Records
import Concolic.Proofs.History
import Mathlib.Data.Finset.Card
import Mathlib.Data.List.Infix

/-!
# Order of arrival

Rosters and records keep things in the order in which they first came.  For a
list that is offered one member after the other, this order is a property of the
list alone: the place of a newcomer is the number of distinct members before its
first occurrence.  Leaving out some kinds of members does not reorder the rest.
Records differ from a roster in what a repetition does.  The path stays where it
is, and the trace that came with it is replaced.

## Main results

* `Roster.get?_ofList_iff`: the roster of a list holds at each place the
  newcomer of that number.
* `Records.roster_recordAll`: recorded paths stand in order of arrival.
* `Records.mem_entries_recordAll`: a recorded path has the trace that came last.
-/

namespace Concolic

/-- `x` is newcomer number `i` of a list: exactly `i` distinct members, and not
`x` itself, come before it. -/
def Newcomer {α : Type} [DecidableEq α] (xs : List α) (i : Nat) (x : α) : Prop :=
  ∃ front rest, xs = front ++ x :: rest ∧ x ∉ front ∧ front.toFinset.card = i

/-! ## Rosters of a list -/

namespace Roster

variable {α : Type} [DecidableEq α]

theorem ofList_append (xs ys : List α) : ofList (xs ++ ys) = (ofList xs).addAll ys :=
  addAll_append ∅ xs ys

theorem size_ofList (xs : List α) : (ofList xs).size = xs.toFinset.card := by
  have hmembers : (ofList xs).toList.toFinset = xs.toFinset := by
    ext x
    rw [List.mem_toFinset, List.mem_toFinset, mem_toList, mem_ofList]
  rw [← hmembers, List.toFinset_card_of_nodup (ofList xs).nodup]
  rfl

/-- A limit that the list keeps is no limit for its roster. -/
theorem take_toList_ofList {xs : List α} {limit : Nat} (h : xs.length ≤ limit) :
    (ofList xs).toList.take limit = (ofList xs).toList := by
  have hsize : (ofList xs).size ≤ xs.length := by
    rw [size_ofList]
    exact List.toFinset_card_le xs
  exact List.take_of_length_le (hsize.trans h)

theorem position_add_self {roster : Roster α} {x : α} (hx : x ∉ roster) :
    (roster.add x).position x = roster.size := by
  rw [position, toList_add_of_not_mem hx, List.idxOf_append, if_neg (mt mem_toList.1 hx),
    List.idxOf_cons_self, Nat.zero_add]
  rfl

/-- A member takes the place after all that came before it. -/
theorem position_ofList {front rest : List α} {x : α} (hx : x ∉ front) :
    (ofList (front ++ x :: rest)).position x = front.toFinset.card := by
  have hnew : x ∉ ofList front := mt mem_ofList.1 hx
  have hjoined : x ∈ (ofList front).add x := mem_add.2 (Or.inr rfl)
  rw [ofList_append, addAll_cons, position_addAll hjoined, position_add_self hnew,
    size_ofList]

/-- **Order of arrival**: the member at place `i` is newcomer number `i`. -/
theorem get?_ofList_iff {xs : List α} {i : Nat} {x : α} :
    (ofList xs).get? i = some x ↔ Newcomer xs i x := by
  rw [get?_eq_some_iff, mem_ofList]
  constructor
  · intro h
    rcases h with ⟨hx, rfl⟩
    obtain ⟨front, rest, rfl, hfront⟩ := List.eq_append_cons_of_mem hx
    exact ⟨front, rest, rfl, hfront, (position_ofList hfront).symm⟩
  · intro h
    rcases h with ⟨front, rest, rfl, hfront, rfl⟩
    exact ⟨List.mem_append_right front List.mem_cons_self, position_ofList hfront⟩

/-- What is kept of a roster keeps its order. -/
theorem filter_toList_ofList (keep : α → Bool) (xs : List α) :
    (ofList xs).toList.filter keep = (ofList (xs.filter keep)).toList := by
  induction xs using List.reverseRecOn with
  | nil => rfl
  | append_singleton xs x ih =>
      rw [ofList_append, addAll_cons, addAll_nil, List.filter_append, ofList_append]
      by_cases hx : x ∈ xs
      · rw [add_of_mem (mem_ofList.2 hx), ih]
        cases hkeep : keep x with
        | false => simp [hkeep]
        | true =>
            have hold : x ∈ ofList (xs.filter keep) := by simp [hx, hkeep]
            simp [hkeep, add_of_mem hold]
      · rw [toList_add_of_not_mem (mt mem_ofList.1 hx), List.filter_append, ih]
        cases hkeep : keep x with
        | false => simp [hkeep]
        | true =>
            have hnew : x ∉ ofList (xs.filter keep) := by simp [hx]
            simp [hkeep, toList_add_of_not_mem hnew]

end Roster

/-! ## Records -/

namespace Records

/-- The recorded paths, as a roster. -/
def roster (records : Records) : Roster Path :=
  ⟨records.paths, records.nodup⟩

theorem roster_record (records : Records) (path : Path) (trace : Trace) :
    (records.record path trace).2.roster = records.roster.add path := by
  refine Roster.ext_toList ?_
  by_cases hpath : path ∈ records.paths
  · have hold : path ∈ records.roster := hpath
    rw [Roster.add_of_mem hold, record, dif_pos hpath]
    exact map_fst_rebind path trace records.entries
  · have hnew : path ∉ records.roster := hpath
    rw [Roster.toList_add_of_not_mem hnew, record, dif_neg hpath]
    exact List.map_append

/-- **Recorded paths** stand in order of arrival. -/
theorem roster_recordAll (records : Records) (paths : List Path) (trace : Trace) :
    (records.recordAll paths trace).roster = records.roster.addAll paths := by
  induction paths generalizing records with
  | nil => rfl
  | cons path paths ih =>
      rw [Roster.addAll_cons, ← roster_record records path trace]
      exact ih (records.record path trace).2

theorem mem_entries_record {records : Records} {path : Path} {trace : Trace}
    {entry : Path × Trace} :
    entry ∈ (records.record path trace).2.entries ↔
      entry = (path, trace) ∨ entry ∈ records.entries ∧ entry.1 ≠ path := by
  by_cases hpath : path ∈ records.paths
  · rw [record, dif_pos hpath]
    simp only [List.mem_map, rebind]
    constructor
    · intro h
      rcases h with ⟨old, hold, rfl⟩
      by_cases heq : old.1 = path
      · simp [heq]
      · simp [heq, hold]
    · intro h
      rcases h with rfl | ⟨hold, hne⟩
      · obtain ⟨old, hold, heq⟩ := List.mem_map.1 hpath
        exact ⟨old, hold, if_pos heq⟩
      · exact ⟨entry, hold, if_neg hne⟩
  · rw [record, dif_neg hpath, List.mem_append, List.mem_singleton, or_comm]
    refine or_congr_right (iff_self_and.2 ?_)
    intro hold heq
    exact hpath (List.mem_map.2 ⟨entry, hold, heq⟩)

/-- **Recorded traces**: a path that came again has the new trace, and the other
paths have the traces they had. -/
theorem mem_entries_recordAll {records : Records} {paths : List Path} {trace : Trace}
    {entry : Path × Trace} :
    entry ∈ (records.recordAll paths trace).entries ↔
      entry.1 ∈ paths ∧ entry.2 = trace ∨ entry ∈ records.entries ∧ entry.1 ∉ paths := by
  induction paths generalizing records with
  | nil => simp [recordAll]
  | cons path paths ih =>
      show entry ∈ ((records.record path trace).2.recordAll paths trace).entries ↔ _
      rw [ih, mem_entries_record, Prod.ext_iff, List.mem_cons]
      by_cases hrest : entry.1 ∈ paths
      · simp [hrest]
      · by_cases heq : entry.1 = path
        · rw [heq] at hrest
          simp [hrest, heq]
        · simp [hrest, heq]

theorem paths_endingWith (records : Records) (clause : Clause) :
    (records.endingWith clause).paths =
      records.paths.filter fun path => path.getLast? == some clause := by
  rw [paths, paths, List.filter_map]
  rfl

end Records

end Concolic
