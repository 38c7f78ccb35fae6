import Concolic.Logbook
import Concolic.Proofs.Repetition
import Mathlib

/-!
# Keeping records with an index

A logbook is the records that an atlas keeps, together with an index.  Recording a path
changes the records that it shows in the same way as recording what is visible of the
path, and gives the same answer, so after any number of calls the two agree.  What the
records are then can be read off the calls.  A path has its place since the first call
with it, and its trace from the last one.

## Main results

* `Logbook.record_records`: one step of a logbook is one of its records.
* `Records.mem_entries_recordEach`, `Records.roster_recordEach`: the records after a list
  of calls.
* `Logbook.recordEach_first_and_last`: a logbook, said of the calls.
-/

namespace Concolic

/-- The last call with `path` came with `trace`. -/
def LastCall (calls : List (Path × Trace)) (path : Path) (trace : Trace) : Prop :=
  ∃ front back, calls = front ++ (path, trace) :: back ∧ ∀ call ∈ back, call.1 ≠ path

section

variable {calls : List (Path × Trace)} {path : Path} {trace : Trace}

theorem not_lastCall_nil : ¬LastCall [] path trace := by
  rintro ⟨front, back, hcalls, -⟩
  simp at hcalls

/-- A new call is the last one with its path; for all other paths nothing changes. -/
theorem lastCall_concat_iff {call : Path × Trace} :
    LastCall (calls ++ [call]) path trace ↔
      (path, trace) = call ∨ LastCall calls path trace ∧ path ≠ call.1 := by
  constructor
  · rintro ⟨front, back, hcalls, hback⟩
    rcases append_singleton_eq_append_cons_iff.1 hcalls with
      ⟨-, heq, -⟩ | ⟨between, rfl, hbefore⟩
    · exact Or.inl heq
    · refine Or.inr ⟨⟨front, between, hbefore, ?_⟩, (hback call (by simp)).symm⟩
      exact fun other hother => hback other (List.mem_append_left _ hother)
  · rintro (rfl | ⟨⟨front, back, rfl, hback⟩, hne⟩)
    · exact ⟨calls, [], rfl, by simp⟩
    · refine ⟨front, back ++ [call], by simp, ?_⟩
      intro other hother
      rcases List.mem_append.1 hother with hold | hlast
      · exact hback other hold
      · exact List.mem_singleton.1 hlast ▸ hne.symm

end

/-! ## Records after a list of calls -/

namespace Records

/-- Record a list of paths one after the other.  Tells for each whether it was new. -/
def recordEach (calls : List (Path × Trace)) : List Bool × Records :=
  calls.foldl (fun done call =>
    let (isNew, records) := done.2.record call.1 call.2
    (done.1 ++ [isNew], records)) ([], ∅)

section

variable {calls : List (Path × Trace)} {path : Path} {trace : Trace}

theorem recordEach_concat (calls : List (Path × Trace)) (call : Path × Trace) :
    recordEach (calls ++ [call]) =
      ((recordEach calls).1 ++ [((recordEach calls).2.record call.1 call.2).1],
        ((recordEach calls).2.record call.1 call.2).2) := by
  rw [recordEach, List.foldl_append]
  rfl

theorem record_fst (records : Records) (path : Path) (trace : Trace) :
    (records.record path trace).1 = decide (path ∉ records.paths) := by
  unfold record
  split
  · next h => simp [h]
  · next h => simp [h]

/-- **Recorded paths** stand in order of their first calls. -/
theorem roster_recordEach (calls : List (Path × Trace)) :
    (recordEach calls).2.roster = Roster.ofList (calls.map Prod.fst) := by
  induction calls using List.reverseRecOn with
  | nil => rfl
  | append_singleton calls call ih =>
      rw [recordEach_concat, roster_record, ih, List.map_append, Roster.ofList_append]
      rfl

/-- **Recorded traces** are those of the last calls. -/
theorem mem_entries_recordEach :
    (path, trace) ∈ (recordEach calls).2.entries ↔ LastCall calls path trace := by
  induction calls using List.reverseRecOn with
  | nil => exact iff_of_false List.not_mem_nil not_lastCall_nil
  | append_singleton calls call ih =>
      rw [recordEach_concat, mem_entries_record, lastCall_concat_iff, ih]

theorem mem_paths_recordEach :
    path ∈ (recordEach calls).2.paths ↔ path ∈ calls.map Prod.fst := by
  have hroster : path ∈ (recordEach calls).2.roster ↔ path ∈ calls.map Prod.fst := by
    rw [roster_recordEach, Roster.mem_ofList]
  exact hroster

theorem length_answers (calls : List (Path × Trace)) :
    (recordEach calls).1.length = calls.length := by
  induction calls using List.reverseRecOn with
  | nil => rfl
  | append_singleton calls call ih => simp [recordEach_concat, ih]

/-- **Answers**: a path is new if no earlier call was made with it. -/
theorem getElem?_answers_iff {i : Nat} {isNew : Bool} :
    (recordEach calls).1[i]? = some isNew ↔ ∃ call, calls[i]? = some call ∧
      isNew = decide (call.1 ∉ (calls.take i).map Prod.fst) := by
  induction calls using List.reverseRecOn with
  | nil => simp [recordEach]
  | append_singleton calls call ih =>
      rw [recordEach_concat]
      rcases Nat.lt_trichotomy i calls.length with hlt | rfl | hgt
      · have hi : i < (recordEach calls).1.length := by rwa [length_answers]
        rw [List.getElem?_append_left hi, ih, List.getElem?_append_left hlt,
          List.take_append_of_le_length (Nat.le_of_lt hlt)]
      · have hanswer : ((recordEach calls).1 ++
            [((recordEach calls).2.record call.1 call.2).1])[calls.length]? =
              some (decide (call.1 ∉ calls.map Prod.fst)) := by
          rw [← length_answers calls, List.getElem?_concat_length, record_fst]
          simp only [mem_paths_recordEach]
        rw [hanswer, List.getElem?_concat_length, List.take_left]
        simp only [Option.some.injEq, exists_eq_left', eq_comm]
      · have hcalls : (calls ++ [call]).length ≤ i := by simpa using hgt
        have hanswers : ((recordEach calls).1 ++
            [((recordEach calls).2.record call.1 call.2).1]).length ≤ i := by
          simpa [length_answers] using hgt
        rw [List.getElem?_eq_none hcalls, List.getElem?_eq_none hanswers]
        simp

/-- An entry is its path, which has a place, and its trace. -/
theorem getElem?_entries_iff {records : Records} {i : Nat} :
    records.entries[i]? = some (path, trace) ↔
      records.roster.get? i = some path ∧ (path, trace) ∈ records.entries := by
  have hroster : records.roster.get? i = records.entries[i]?.map Prod.fst :=
    List.getElem?_map
  rw [hroster]
  constructor
  · intro h
    rw [h]
    exact ⟨rfl, List.mem_of_getElem? h⟩
  · rintro ⟨hplace, hmem⟩
    obtain ⟨entry, hentry, rfl⟩ := Option.map_eq_some_iff.1 hplace
    have hsame := List.inj_on_of_nodup_map records.nodup (List.mem_of_getElem? hentry) hmem rfl
    rw [hentry, hsame]

theorem trace?_eq_some_iff {records : Records} :
    records.trace? path = some trace ↔ (path, trace) ∈ records.entries := by
  rw [trace?, List.lookup_eq_some_iff]
  constructor
  · rintro ⟨front, back, hentries, -⟩
    rw [hentries]
    exact List.mem_append_right front List.mem_cons_self
  · intro hmem
    obtain ⟨front, back, hentries⟩ := List.append_of_mem hmem
    refine ⟨front, back, hentries, ?_⟩
    have hnodup := records.nodup
    rw [hentries, List.map_append, List.map_cons, List.nodup_append] at hnodup
    intro entry hentry
    have hne := hnodup.2.2 entry.1 (List.mem_map_of_mem hentry) path List.mem_cons_self
    exact bne_iff_ne.2 hne.symm

theorem trace?_eq_none_iff {records : Records} :
    records.trace? path = none ↔ path ∉ records.paths := by
  rw [trace?, List.lookup_eq_none_iff, paths, List.mem_map]
  constructor
  · rintro hnone ⟨entry, hentry, rfl⟩
    exact bne_iff_ne.1 (hnone entry hentry) rfl
  · intro hpath entry hentry
    refine bne_iff_ne.2 ?_
    rintro rfl
    exact hpath ⟨entry, hentry, rfl⟩

end

end Records

/-! ## Logbooks and records -/

namespace Logbook

theorem map_fst_entries (book : Logbook) :
    book.entries.map Prod.fst = visiblePaths book.table := by
  rw [entries, List.map_map]
  rfl

/-- What a logbook shows. -/
def records (book : Logbook) : Records where
  entries := book.entries
  nodup := by
    rw [map_fst_entries]
    exact book.nodup

section

variable {book : Logbook} {path : Excerpt} {trace : Trace} {i : Nat}

theorem mem_paths_records_iff :
    path.clauses ∈ book.records.paths ↔ ∃ i, book.index[path]? = some i := by
  have hpaths : book.records.paths = visiblePaths book.table := map_fst_entries book
  simp only [hpaths, List.mem_iff_getElem?, book.index_iff]

/-- The index leads to the entry of the path. -/
theorem index_eq_some_iff : book.index[path]? = some i ↔
    ∃ entry, book.table[i]? = some entry ∧ entry.1.clauses = path.clauses := by
  rw [book.index_iff, visiblePaths, List.getElem?_map, Array.getElem?_toList,
    Option.map_eq_some_iff]

/-- The trace of a known path is replaced where the path stands. -/
theorem entries_set (hi : i < book.table.size) (h : book.index[path]? = some i) :
    (book.table.set i (book.table[i].1, trace)).toList.map visible =
      book.entries.map (Records.rebind path.clauses trace) := by
  obtain ⟨own, hown, hsame⟩ := index_eq_some_iff.1 h
  rw [Array.getElem?_eq_getElem hi, Option.some.injEq] at hown
  refine List.ext_getElem? fun j => ?_
  simp only [entries, List.getElem?_map, Array.getElem?_toList, Array.getElem?_set]
  split
  · next hj =>
    subst hj
    rw [Array.getElem?_eq_getElem hi, hown]
    simp [Records.rebind, visible, hsame]
  · next hj =>
    rw [Option.map_map]
    refine Option.map_congr ?_
    intro entry hentry
    have hother : entry.1.clauses ≠ path.clauses := by
      intro heq
      have hfound := index_eq_some_iff.2 ⟨entry, hentry, heq⟩
      rw [h] at hfound
      exact hj (Option.some.inj hfound)
    rw [Function.comp_apply, Records.rebind, visible, if_neg hother]

/-- **One step** of a logbook is one of its records. -/
theorem record_records (book : Logbook) (path : Excerpt) (trace : Trace) :
    (book.record path trace).1 = (book.records.record path.clauses trace).1 ∧
      (book.record path trace).2.records = (book.records.record path.clauses trace).2 := by
  unfold record
  split
  · next i h =>
    have hpath : path.clauses ∈ book.records.paths := mem_paths_records_iff.2 ⟨i, h⟩
    rw [Records.record, dif_pos hpath]
    exact ⟨rfl, Records.eq_of_entries (entries_set (lt_size_of_index h) h)⟩
  · next h =>
    have hpath : path.clauses ∉ book.records.paths := by
      rw [mem_paths_records_iff, h]
      simp
    rw [Records.record, dif_neg hpath]
    refine ⟨rfl, Records.eq_of_entries ?_⟩
    simp [records, entries, visible]

theorem trace?_records (book : Logbook) (path : Excerpt) :
    book.trace? path = book.records.trace? path.clauses := by
  unfold trace?
  split
  · next i h =>
    have hi := lt_size_of_index h
    obtain ⟨own, hown, hsame⟩ := index_eq_some_iff.1 h
    rw [Array.getElem?_eq_getElem hi, Option.some.injEq] at hown
    refine (Records.trace?_eq_some_iff.2 ?_).symm
    rw [← hsame, ← hown]
    exact List.mem_map_of_mem (Array.getElem_mem_toList hi)
  · next h =>
    refine (Records.trace?_eq_none_iff.2 ?_).symm
    rw [mem_paths_records_iff, h]
    simp

theorem size_records (book : Logbook) : book.size = book.records.roster.size := by
  have hpaths : book.records.roster.toList = visiblePaths book.table := map_fst_entries book
  rw [Roster.size, hpaths, length_visiblePaths, size]

/-! ## A logbook after a list of calls -/

variable {calls : List (Excerpt × Trace)}

theorem recordEach_concat (calls : List (Excerpt × Trace)) (call : Excerpt × Trace) :
    recordEach (calls ++ [call]) =
      ((recordEach calls).1 ++ [((recordEach calls).2.record call.1 call.2).1],
        ((recordEach calls).2.record call.1 call.2).2) := by
  rw [recordEach, List.foldl_append]
  rfl

/-- **A list of calls** leaves a logbook as it leaves the records, with the same answers. -/
theorem recordEach_records (calls : List (Excerpt × Trace)) :
    (recordEach calls).1 = (Records.recordEach (calls.map visible)).1 ∧
      (recordEach calls).2.records = (Records.recordEach (calls.map visible)).2 := by
  induction calls using List.reverseRecOn with
  | nil => exact ⟨rfl, rfl⟩
  | append_singleton calls call ih =>
      obtain ⟨hanswer, hrecords⟩ := record_records (recordEach calls).2 call.1 call.2
      rw [ih.2] at hanswer hrecords
      rw [recordEach_concat, List.map_append, List.map_singleton, Records.recordEach_concat]
      refine ⟨?_, hrecords⟩
      rw [ih.1, hanswer]
      rfl

theorem entries_getElem?_iff {path : Path} :
    (recordEach calls).2.entries[i]? = some (path, trace) ↔
      Newcomer ((calls.map visible).map Prod.fst) i path ∧
        LastCall (calls.map visible) path trace := by
  have hrecords := (recordEach_records calls).2
  have hentries : (recordEach calls).2.entries =
      (Records.recordEach (calls.map visible)).2.entries := congrArg Records.entries hrecords
  rw [hentries, ← Roster.get?_ofList_iff, ← Records.roster_recordEach,
    ← Records.mem_entries_recordEach]
  exact Records.getElem?_entries_iff

theorem trace?_eq_some_iff :
    (recordEach calls).2.trace? path = some trace ↔
      LastCall (calls.map visible) path.clauses trace := by
  rw [trace?_records, (recordEach_records calls).2, Records.trace?_eq_some_iff,
    Records.mem_entries_recordEach]

theorem trace?_eq_none_iff :
    (recordEach calls).2.trace? path = none ↔ ∀ call ∈ calls, (call.1 == path) = false := by
  rw [trace?_records, (recordEach_records calls).2, Records.trace?_eq_none_iff,
    Records.mem_paths_recordEach]
  simp [visible, Excerpt.beq_eq_false_iff]

theorem answers_getElem?_iff {isNew : Bool} :
    (recordEach calls).1[i]? = some isNew ↔ ∃ call, calls[i]? = some call ∧
      isNew = decide (∀ earlier ∈ calls.take i, (earlier.1 == call.1) = false) := by
  have hearlier : ∀ call : Excerpt × Trace,
      ((visible call).1 ∉ ((calls.map visible).take i).map Prod.fst) ↔
        ∀ earlier ∈ calls.take i, (earlier.1 == call.1) = false := by
    intro call
    rw [← List.map_take, List.map_map, List.mem_map, not_exists]
    exact forall_congr' fun earlier =>
      not_and.trans (imp_congr_right fun _ => Excerpt.beq_eq_false_iff.symm)
  rw [(recordEach_records calls).1, Records.getElem?_answers_iff]
  simp only [List.getElem?_map, Option.map_eq_some_iff, ← hearlier]
  constructor
  · rintro ⟨_, ⟨call, hcall, rfl⟩, hanswer⟩
    exact ⟨call, hcall, hanswer⟩
  · rintro ⟨call, hcall, hanswer⟩
    exact ⟨visible call, ⟨call, hcall, rfl⟩, hanswer⟩

/-- **A logbook, said of the calls.**  Its entries are the distinct paths in order of their
first calls, each with the trace of its last call.  The same trace is found for the path,
and none for a path without any call.  There are as many entries as distinct paths, and a
call is answered with yes exactly if no earlier one was made with its path.  All this is
what the records of an atlas would be and answer.  Two paths are the same if the same is
visible of them. -/
theorem recordEach_first_and_last (calls : List (Excerpt × Trace)) :
    (∀ i path trace, (recordEach calls).2.entries[i]? = some (path, trace) ↔
      Newcomer ((calls.map visible).map Prod.fst) i path ∧
        LastCall (calls.map visible) path trace) ∧
    (∀ path trace, (recordEach calls).2.trace? path = some trace ↔
      LastCall (calls.map visible) path.clauses trace) ∧
    (∀ path, (recordEach calls).2.trace? path = none ↔
      ∀ call ∈ calls, (call.1 == path) = false) ∧
    (recordEach calls).2.size = ((calls.map visible).map Prod.fst).toFinset.card ∧
    (∀ i isNew, (recordEach calls).1[i]? = some isNew ↔ ∃ call, calls[i]? = some call ∧
      isNew = decide (∀ earlier ∈ calls.take i, (earlier.1 == call.1) = false)) ∧
    ((recordEach calls).1 = (Records.recordEach (calls.map visible)).1 ∧
      (recordEach calls).2.records = (Records.recordEach (calls.map visible)).2) ∧
    ∀ left right : Excerpt, (left == right) = true ↔
      left.buffer.take left.count = right.buffer.take right.count := by
  refine ⟨fun i path trace => entries_getElem?_iff, fun path trace => trace?_eq_some_iff,
    fun path => trace?_eq_none_iff, ?_, fun i isNew => answers_getElem?_iff,
    recordEach_records calls, fun left right => Excerpt.beq_iff⟩
  rw [size_records, (recordEach_records calls).2, Records.roster_recordEach,
    Roster.size_ofList]

end

end Logbook

end Concolic
