import Concolic.Records
import Mathlib

/-!
# Records with an index

Records are searched from their first path on.  A logbook keeps the same in a table, and
beside it an index that tells at which position of the table a path stands.  Its paths are
excerpts of longer lists of decisions.  A run has one such list, and the paths to all its
decisions are cut from that, so an excerpt is told by the clauses up to its cut.  What
stands behind the cut belongs to other paths and is not looked at, neither to compare
excerpts nor to find one in the index.

That the index points to where a path stands is part of what a logbook is.  So a position
taken from the index is a position of the table, and there is nothing to check when it is
used.

## Main results

* `Excerpt.map_clauses_cut`: an excerpt shows what is cut from a path.
* `Logbook.record`, `Logbook.trace?`: recording and looking up.
-/

namespace Concolic

deriving instance Hashable for Relation
deriving instance Hashable for Term
deriving instance Hashable for Location
deriving instance Hashable for Instruction
deriving instance Hashable for Kind
deriving instance Hashable for Fact
deriving instance Hashable for Predicate
deriving instance Hashable for Clause

/-! ## Excerpts -/

/-- The first `count` clauses of a list that may have more. -/
structure Excerpt where
  buffer : Path
  count : Nat
  count_le : count ≤ buffer.length

namespace Excerpt

/-- The first `count` clauses of a path. -/
def cut (path : Path) (count : Nat) : Except Fault Excerpt :=
  if h : count ≤ path.length then .ok ⟨path, count, h⟩
  else .error (.pathTooShort count path.length)

/-- What is visible of an excerpt. -/
def clauses (excerpt : Excerpt) : Path :=
  excerpt.buffer.take excerpt.count

instance : BEq Excerpt := ⟨fun left right => left.clauses == right.clauses⟩

instance : Hashable Excerpt := ⟨fun excerpt => hash excerpt.clauses⟩

/-- Excerpts are compared by what is visible. -/
theorem beq_iff {left right : Excerpt} :
    (left == right) = true ↔ left.clauses = right.clauses := by
  show (left.clauses == right.clauses) = true ↔ _
  exact beq_iff_eq

theorem beq_eq_false_iff {left right : Excerpt} :
    (left == right) = false ↔ left.clauses ≠ right.clauses := by
  rw [← Bool.not_eq_true, beq_iff]

instance : EquivBEq Excerpt where
  rfl := beq_iff.2 rfl
  symm h := beq_iff.2 (beq_iff.1 h).symm
  trans h h' := beq_iff.2 ((beq_iff.1 h).trans (beq_iff.1 h'))

instance : LawfulHashable Excerpt where
  hash_eq left right h := by
    show hash left.clauses = hash right.clauses
    rw [beq_iff.1 h]

/-- An excerpt shows what is cut from a path, and is refused when that is. -/
theorem map_clauses_cut (path : Path) (count : Nat) :
    (cut path count).map clauses = path.cut count := by
  unfold cut Path.cut
  split <;> rfl

end Excerpt

/-! ## Tables of excerpts -/

/-- What is visible of an excerpt that comes with a trace. -/
def visible (entry : Excerpt × Trace) : Path × Trace :=
  (entry.1.clauses, entry.2)

/-- The paths in a table, as far as they are visible. -/
def visiblePaths (table : Array (Excerpt × Trace)) : List Path :=
  table.toList.map fun entry => entry.1.clauses

theorem length_visiblePaths (table : Array (Excerpt × Trace)) :
    (visiblePaths table).length = table.size := by
  rw [visiblePaths, List.length_map, Array.length_toList]

/-- A new trace leaves the paths of a table alone. -/
theorem visiblePaths_set (table : Array (Excerpt × Trace)) (i : Nat) (h : i < table.size)
    (trace : Trace) :
    visiblePaths (table.set i (table[i].1, trace) h) = visiblePaths table := by
  refine List.ext_getElem? fun j => ?_
  simp only [visiblePaths, List.getElem?_map, Array.getElem?_toList, Array.getElem?_set]
  split
  · next heq =>
    subst heq
    simp [h]
  · rfl

theorem visiblePaths_push (table : Array (Excerpt × Trace)) (entry : Excerpt × Trace) :
    visiblePaths (table.push entry) = visiblePaths table ++ [entry.1.clauses] := by
  simp [visiblePaths]

/-- What stands in a list with one more member at the end. -/
theorem getElem?_concat_eq_some_iff {α : Type} {xs : List α} {x y : α} {i : Nat} :
    (xs ++ [x])[i]? = some y ↔ xs[i]? = some y ∨ i = xs.length ∧ x = y := by
  rcases Nat.lt_trichotomy i xs.length with hlt | rfl | hgt
  · simp [List.getElem?_append_left hlt, Nat.ne_of_lt hlt]
  · simp
  · have hlong : (xs ++ [x]).length ≤ i := by simpa using hgt
    rw [List.getElem?_eq_none hlong, List.getElem?_eq_none (Nat.le_of_lt hgt)]
    simp [Nat.ne_of_gt hgt]

/-! ## Logbooks -/

/-- Excerpts with the latest trace of each, in order of first recording, and the positions
at which they stand. -/
structure Logbook where
  table : Array (Excerpt × Trace)
  index : Std.HashMap Excerpt Nat
  nodup : (visiblePaths table).Nodup
  index_iff : ∀ (path : Excerpt) (i : Nat),
    index[path]? = some i ↔ (visiblePaths table)[i]? = some path.clauses

namespace Logbook

instance : EmptyCollection Logbook where
  emptyCollection :=
    { table := #[]
      index := ∅
      nodup := List.nodup_nil
      index_iff := by simp [visiblePaths] }

instance : Inhabited Logbook := ⟨∅⟩

section

variable {book : Logbook} {path : Excerpt} {i : Nat}

theorem lt_size_of_index (h : book.index[path]? = some i) : i < book.table.size := by
  obtain ⟨hi, -⟩ := List.getElem?_eq_some_iff.1 ((book.index_iff path i).1 h)
  rwa [length_visiblePaths] at hi

/-- What is not in the index is not in the table. -/
theorem not_mem_of_index (h : book.index[path]? = none) :
    path.clauses ∉ visiblePaths book.table := by
  intro hmem
  obtain ⟨i, hi⟩ := List.mem_iff_getElem?.1 hmem
  rw [(book.index_iff path i).2 hi] at h
  cases h

theorem nodup_push (h : book.index[path]? = none) (trace : Trace) :
    (visiblePaths (book.table.push (path, trace))).Nodup := by
  rw [visiblePaths_push]
  exact List.nodup_append.2 ⟨book.nodup, List.nodup_singleton _, by
    rintro a ha b hb rfl
    exact not_mem_of_index h (List.mem_singleton.1 hb ▸ ha)⟩

/-- The new path has the position after the last one, and all others keep theirs. -/
theorem index_insert_iff (h : book.index[path]? = none) (trace : Trace) (other : Excerpt)
    (i : Nat) :
    (book.index.insert path book.table.size)[other]? = some i ↔
      (visiblePaths (book.table.push (path, trace)))[i]? = some other.clauses := by
  have hnew := not_mem_of_index h
  rw [Std.HashMap.getElem?_insert, visiblePaths_push, getElem?_concat_eq_some_iff,
    length_visiblePaths]
  by_cases heq : (path == other) = true
  · have hsame := Excerpt.beq_iff.1 heq
    have hold : (visiblePaths book.table)[i]? ≠ some other.clauses :=
      fun hi => hnew (hsame ▸ List.mem_of_getElem? hi)
    rw [if_pos heq, Option.some.injEq, or_iff_right hold, and_iff_left hsame, eq_comm]
  · have hother : path.clauses ≠ other.clauses := mt Excerpt.beq_iff.2 heq
    rw [if_neg heq, book.index_iff, or_iff_left (mt And.right hother)]

end

/-- The index is asked for the path.  If it has a position, the trace there is replaced;
otherwise the path goes to the end of the table.  Tells whether the path is new. -/
def record (book : Logbook) (path : Excerpt) (trace : Trace) : Bool × Logbook :=
  match h : book.index[path]? with
  | some i =>
      have hi := lt_size_of_index h
      (false,
        { table := book.table.set i (book.table[i].1, trace)
          index := book.index
          nodup := by
            rw [visiblePaths_set]
            exact book.nodup
          index_iff := by
            rw [visiblePaths_set]
            exact book.index_iff })
  | none =>
      (true,
        { table := book.table.push (path, trace)
          index := book.index.insert path book.table.size
          nodup := nodup_push h trace
          index_iff := index_insert_iff h trace })

/-- The latest trace that followed a path, if any did. -/
def trace? (book : Logbook) (path : Excerpt) : Option Trace :=
  match h : book.index[path]? with
  | some i =>
      have hi := lt_size_of_index h
      some book.table[i].2
  | none => none

/-- The number of recorded paths. -/
def size (book : Logbook) : Nat :=
  book.table.size

/-- The recorded paths, as far as they are visible, each with its trace, in order of first
recording. -/
def entries (book : Logbook) : List (Path × Trace) :=
  book.table.toList.map visible

/-- Record a list of paths one after the other.  Tells for each whether it was new. -/
def recordEach (calls : List (Excerpt × Trace)) : List Bool × Logbook :=
  calls.foldl (fun done call =>
    let (isNew, book) := done.2.record call.1 call.2
    (done.1 ++ [isNew], book)) ([], ∅)

end Logbook

end Concolic
