import Concolic.Ascending
import Concolic.FlowGraph.Basic
import Concolic.Records
import Concolic.Roster

/-!
# The atlas of runs

An atlas merges the traces of many runs into one graph.  Every distinct clause
owns one vertex, however often and wherever it was observed: runs that begin
alike share their first vertices, and runs that parted meet again as soon as
they observe the same clause.  A vertex is named by its number, the position of
its clause in order of first observation; numbers never change.  Two vertices
are joined by an edge if some run observed their clauses one directly after the
other.

What an atlas stores is what was observed, in order of arrival.  Everything
else, such as the successors of a vertex, is a view of that, and a set of
vertices is always shown in ascending order.
-/

namespace Concolic

/-- What the owner of an atlas may choose. -/
structure Settings where
  /-- The number of vertices to expect. -/
  capacity : Nat := 1024
  /-- The largest number of ancestors in a query, unless said otherwise. -/
  ancestorLimit : Nat := 8
  deriving DecidableEq

/-- The merged observations of a sequence of runs. -/
structure Atlas where
  settings : Settings
  /-- The clause of each vertex. -/
  clauses : Roster Clause
  /-- Pairs of vertices that some run visited one directly after the other. -/
  edges : Roster (Nat × Nat)
  /-- The vertices at which some run began. -/
  entries : Roster Nat
  /-- The paths that were followed to decisions. -/
  records : Records
  /-- The decisions that need no further run. -/
  closed : Roster Nat
  /-- The largest number of decisions in one run. -/
  depth : Nat
  deriving DecidableEq

namespace Atlas

/-- The atlas of no run. -/
def empty (settings : Settings) : Atlas :=
  ⟨settings, ∅, ∅, ∅, ∅, ∅, 0⟩

/-! ## Vertices -/

/-- The number of vertices. -/
def size (atlas : Atlas) : Nat :=
  atlas.clauses.size

/-- All vertices. -/
def ids (atlas : Atlas) : List Nat :=
  List.range atlas.size

/-- The vertex at which the first run began. -/
def origin? (atlas : Atlas) : Option Nat :=
  if 0 < atlas.size then some 0 else none

/-- The clause of a vertex. -/
def clause? (atlas : Atlas) (v : Nat) : Option Clause :=
  atlas.clauses.get? v

/-- Is the vertex that of a decision? -/
def isDecision (atlas : Atlas) (v : Nat) : Bool :=
  (atlas.clause? v).any Clause.isDecision

/-- The vertices of decisions. -/
def decisions (atlas : Atlas) : List Nat :=
  atlas.ids.filter atlas.isDecision

/-- Answer only for a vertex of the atlas. -/
def checked {α : Type} (atlas : Atlas) (v : Nat) (answer : α) : Except Fault α :=
  if v < atlas.size then .ok answer else .error (.unknownVertex v)

/-! ## Finding the vertex of a clause -/

/-- The vertex of a clause, if the clause was observed. -/
def find? (atlas : Atlas) (clause : Clause) : Option Nat :=
  atlas.clauses.position? clause

/-- The vertex of a clause that was observed. -/
def vertex (atlas : Atlas) (clause : Clause) : Except Fault Nat :=
  match atlas.find? clause with
  | some v => .ok v
  | none => .error (.neverObserved clause)

/-- The vertex of a decision that was observed. -/
def decisionVertex (atlas : Atlas) (clause : Clause) : Except Fault Nat :=
  if clause.isDecision then atlas.vertex clause else .error (.notDecision clause)

/-! ## Edges and entries -/

/-- The vertices that some run visited directly after `u`. -/
def successors (atlas : Atlas) (u : Nat) : List Nat :=
  ascending atlas.size (atlas.edges.toList.filterMap fun edge =>
    if edge.1 = u then some edge.2 else none)

/-- The vertices that some run visited directly before `v`. -/
def predecessors (atlas : Atlas) (v : Nat) : List Nat :=
  ascending atlas.size (atlas.edges.toList.filterMap fun edge =>
    if edge.2 = v then some edge.1 else none)

/-- All edges, by their first vertex and then by their second. -/
def edgeList (atlas : Atlas) : List (Nat × Nat) :=
  atlas.ids.flatMap fun u => (atlas.successors u).map (u, ·)

/-- The vertices at which some run began, in ascending order. -/
def entryList (atlas : Atlas) : List Nat :=
  ascending atlas.size atlas.entries.toList

theorem mem_successors {atlas : Atlas} {u v : Nat} :
    v ∈ atlas.successors u ↔ v < atlas.size ∧ (u, v) ∈ atlas.edges := by
  rw [successors, mem_ascending, List.mem_filterMap, ← Roster.mem_toList]
  refine and_congr_right fun _ => ⟨?_, fun h => ⟨(u, v), h, if_pos rfl⟩⟩
  rintro ⟨⟨a, b⟩, h, hab⟩
  split at hab
  · next ha =>
    cases ha
    cases hab
    exact h
  · cases hab

theorem mem_predecessors {atlas : Atlas} {u v : Nat} :
    u ∈ atlas.predecessors v ↔ u < atlas.size ∧ (u, v) ∈ atlas.edges := by
  rw [predecessors, mem_ascending, List.mem_filterMap, ← Roster.mem_toList]
  refine and_congr_right fun _ => ⟨?_, fun h => ⟨(u, v), h, if_pos rfl⟩⟩
  rintro ⟨⟨a, b⟩, h, hab⟩
  split at hab
  · next hb =>
    cases hb
    cases hab
    exact h
  · cases hab

/-- The graph of all runs, rooted at the origin. -/
def flow (atlas : Atlas) : FlowGraph where
  next := (atlas.ids.map atlas.successors).toArray
  root := 0
  next_lt := by
    intro u v h
    have hsize : (atlas.ids.map atlas.successors).toArray.size = atlas.size := by
      simp [ids]
    rw [hsize]
    rw [List.getElem?_toArray, List.getElem?_map] at h
    cases hu : atlas.ids[u]? with
    | none => simp [hu] at h
    | some w =>
      rw [hu] at h
      exact (mem_successors.1 h).1

/-! ## Paths and closed decisions -/

/-- The paths that end at a vertex, each with the latest run that followed it. -/
def recordsAt (atlas : Atlas) (v : Nat) : Records :=
  match atlas.clause? v with
  | some clause => atlas.records.endingWith clause
  | none => ∅

/-- The latest run that followed `path` to the vertex `v`, if any did. -/
def traceAlong (atlas : Atlas) (v : Nat) (path : Path) : Except Fault (Option Trace) :=
  atlas.checked v ((atlas.recordsAt v).trace? path)

/-- Is the decision at a vertex closed? -/
def isClosed (atlas : Atlas) (v : Nat) : Bool :=
  decide (v ∈ atlas.closed)

/-- Is the decision that a clause observes closed? -/
def isClosedDecision (atlas : Atlas) (clause : Clause) : Except Fault Bool :=
  return atlas.isClosed (← atlas.decisionVertex clause)

/-- The closed decisions, in ascending order. -/
def closedList (atlas : Atlas) : List Nat :=
  ascending atlas.size atlas.closed.toList

end Atlas

end Concolic
