import Concolic.Trace

/-!
# Records

For every path that some run followed to a decision, we keep the latest run
that did.  The paths stay in the order in which they were first followed; a
run that follows a known path again takes the place of the older run and moves
nothing.
-/

namespace Concolic

/-- Paths with the latest trace of each, in order of first recording. -/
structure Records where
  entries : List (Path × Trace)
  nodup : (entries.map Prod.fst).Nodup
  deriving DecidableEq

namespace Records

instance : EmptyCollection Records := ⟨⟨[], List.nodup_nil⟩⟩

instance : Inhabited Records := ⟨∅⟩

/-- The recorded paths, in order of first recording. -/
def paths (records : Records) : List Path :=
  records.entries.map Prod.fst

/-- The latest trace that followed a path, if any did. -/
def trace? (records : Records) (path : Path) : Option Trace :=
  records.entries.lookup path

/-- Give `path` a new trace; an entry of another path is left alone. -/
def rebind (path : Path) (trace : Trace) (entry : Path × Trace) : Path × Trace :=
  if entry.1 = path then (path, trace) else entry

theorem map_fst_rebind (path : Path) (trace : Trace) (entries : List (Path × Trace)) :
    (entries.map (rebind path trace)).map Prod.fst = entries.map Prod.fst := by
  rw [List.map_map]
  refine List.map_congr_left fun entry _ => ?_
  by_cases h : entry.1 = path <;> simp [rebind, h]

/-- Record that `trace` followed `path`, and tell whether the path is new. -/
def record (records : Records) (path : Path) (trace : Trace) : Bool × Records :=
  if h : path ∈ records.paths then
    (false, ⟨records.entries.map (rebind path trace), by
      rw [map_fst_rebind]
      exact records.nodup⟩)
  else
    (true, ⟨records.entries ++ [(path, trace)], by
      rw [List.map_append]
      refine List.nodup_append.2 ⟨records.nodup, by simp, ?_⟩
      rintro a ha b hb rfl
      exact h ((List.mem_singleton.1 hb : a = path) ▸ ha)⟩)

/-- Record all paths that one trace followed. -/
def recordAll (records : Records) (paths : List Path) (trace : Trace) : Records :=
  paths.foldl (fun kept path => (kept.record path trace).2) records

/-- The records of the paths that end with `clause`. -/
def endingWith (records : Records) (clause : Clause) : Records where
  entries := records.entries.filter fun entry => entry.1.getLast? == some clause
  nodup := records.nodup.sublist ((List.filter_sublist).map Prod.fst)

/-- The number of recorded paths. -/
def size (records : Records) : Nat :=
  records.entries.length

end Records

end Concolic
