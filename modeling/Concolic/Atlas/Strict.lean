import Concolic.Atlas.Drawing
import Concolic.Atlas.Query
import Concolic.Atlas.Summary

/-!
# Questions that look everything up

An atlas refers to its vertices by number, and its paths are lists of clauses.  Such
references are kept far from what they refer to: in edges and entries, in the queue
of a sweep, in the paths on record and in the ancestors of a query.  The questions
asked elsewhere pass over a number that is no vertex, and take a clause without a
vertex for a number past the last one.

Here the same questions are asked strictly.  Every reference that is come upon is
looked up, in the order in which it is come upon, and one that leads nowhere is a
fault.  So is a table that has no room for a vertex, and a vertex that waits in the
queue of a sweep without a rank.
-/

namespace Concolic

namespace Atlas

namespace Strict

/-! ## Vertices and their neighbours -/

/-- The clause of a vertex. -/
def clause (atlas : Atlas) (v : Nat) : Except Fault Clause :=
  match atlas.clause? v with
  | some clause => .ok clause
  | none => .error (.unknownVertex v)

/-- A stored set of vertices, in ascending order. -/
def vertices (atlas : Atlas) (stored : List Nat) : Except Fault (List Nat) := do
  let found ← stored.mapM fun v => atlas.checked v v
  return ascending atlas.size found

/-- The vertices that some run visited directly after `u`. -/
def successors (atlas : Atlas) (u : Nat) : Except Fault (List Nat) := do
  let _ ← clause atlas u
  vertices atlas (atlas.edges.toList.filterMap fun edge =>
    if edge.1 = u then some edge.2 else none)

/-- The vertices that some run visited directly before `v`. -/
def predecessors (atlas : Atlas) (v : Nat) : Except Fault (List Nat) := do
  let _ ← clause atlas v
  vertices atlas (atlas.edges.toList.filterMap fun edge =>
    if edge.2 = v then some edge.1 else none)

/-- The successors of all vertices, which is all that dominance depends on. -/
def next (atlas : Atlas) : Except Fault (List (List Nat)) :=
  atlas.ids.mapM (successors atlas)

/-- The edges that begin at `u`. -/
def edgesFrom (atlas : Atlas) (u : Nat) : Except Fault (List (Nat × Nat)) := do
  return (← successors atlas u).map (u, ·)

/-- All edges, by their first vertex and then by their second. -/
def edges (atlas : Atlas) : Except Fault (List (Nat × Nat)) := do
  return (← atlas.ids.mapM (edgesFrom atlas)).flatten

/-- The vertices that count as outcomes of the decision at `v`. -/
def outcomes (atlas : Atlas) (v : Nat) : Except Fault (List Nat) := do
  let own ← clause atlas v
  match ← predecessors atlas v with
  | [] => do
      let entries ← vertices atlas atlas.entries.toList
      entries.filterM fun e => do
        let opening ← clause atlas e
        return opening.isDecision && opening.location == own.location
  | before => do
      let parts ← before.mapM (successors atlas)
      return ascending atlas.size parts.flatten

/-! ## Ranks -/

/-- Enter a vertex in the course of a sweep; its clause tells whether this is free. -/
def enter (atlas : Atlas) (before : Nat) (sweep : FlowGraph.Sweep) (v : Nat) :
    Except Fault FlowGraph.Sweep := do
  let found ← clause atlas v
  if v < sweep.ranks.size then
    return FlowGraph.Sweep.enter (fun _ => found.isDecision) before sweep v
  else .error (.unknownVertex v)

/-- Leave the first vertex of the queue and enter its successors. -/
def step (atlas : Atlas) (sweep : FlowGraph.Sweep) : Except Fault FlowGraph.Sweep :=
  match sweep.queue with
  | [] => .ok sweep
  | u :: rest =>
      match sweep.rank? u with
      | none => .error (.unknownVertex u)
      | some before => do
          let after ← successors atlas u
          after.foldlM (enter atlas before) { sweep with queue := rest }

/-- The sweep from the origin after a number of steps. -/
def sweep (atlas : Atlas) : Nat → Except Fault FlowGraph.Sweep
  | 0 =>
      let blank : FlowGraph.Sweep := ⟨[], Array.replicate atlas.size none⟩
      match atlas.origin? with
      | none => .ok blank
      | some v => enter atlas 0 blank v
  | count + 1 => do step atlas (← sweep atlas count)

/-- A vertex with the rank that a sweep gave it, if it gave one. -/
def ranked (sweep : FlowGraph.Sweep) (v : Nat) : Except Fault (Option (Nat × Nat)) :=
  match sweep.ranks[v]? with
  | some rank => .ok (rank.map (v, ·))
  | none => .error (.unknownVertex v)

/-- Each decision within reach of the origin, with its rank. -/
def ranking (atlas : Atlas) : Except Fault (List (Nat × Nat)) := do
  let finished ← sweep atlas atlas.size
  return (← atlas.decisions.mapM (ranked finished)).filterMap id

/-- The decisions of a rank. -/
def layer (atlas : Atlas) (rank : Nat) : Except Fault (List Nat) := do
  return ((← ranking atlas).filter fun entry => entry.2 == rank).map Prod.fst

/-- The decisions of a rank that are not closed. -/
def openLayer (atlas : Atlas) (rank : Nat) : Except Fault (List Nat) := do
  return (← layer atlas rank).filter fun v => !atlas.isClosed v

/-! ## Queries -/

/-- The vertices of earlier decisions on `path` that matter to `target`.  The whole
path is looked up, also what the limit leaves out. -/
def ancestors (atlas : Atlas) (target : Nat) (path : Path) (limit : Nat) :
    Except Fault (List Nat) := do
  let stops ← path.reverse.mapM atlas.vertex
  let relevant := stops.filter fun v => v != target && !atlas.dominates v target
  return (Roster.ofList relevant).toList.take limit

/-- One query for each path that was recorded at `target`. -/
def queries (atlas : Atlas) (target limit : Nat) : Except Fault (List Query) :=
  (atlas.recordsAt target).entries.mapM fun entry => do
    let kept ← ancestors atlas target entry.1 limit
    return { target, ancestors := kept, trace := entry.2, path := entry.1 }

/-- The clauses of the ancestors in a query. -/
def conditions (atlas : Atlas) (query : Query) : Except Fault (List Clause) :=
  query.ancestors.mapM (clause atlas)

/-! ## Summaries and drawings -/

/-- The extent of an atlas, with its edges counted at their first vertices. -/
def extent (atlas : Atlas) : Except Fault Extent := do
  return { atlas.extent with edges := (← edges atlas).length }

/-- What there is to say of the decision at `v`, which a clause observes. -/
def decisionSummary (atlas : Atlas) (v : Nat) (clause : Clause) :
    Except Fault DecisionSummary := do
  return {
    seen := (← outcomes atlas v).length
    threshold := ← clause.threshold
    isClosed := atlas.isClosed v
    rank := (← ranking atlas).lookup v
    paths := (atlas.recordsAt v).size }

/-- The summary of a vertex. -/
def summary (atlas : Atlas) (v : Nat) : Except Fault VertexSummary := do
  let found ← clause atlas v
  let decision ←
    if found.isDecision then some <$> decisionSummary atlas v found else pure none
  return {
    id := v
    clause := found
    isOrigin := atlas.origin? == some v
    decision := decision
    immediateDominator := atlas.immediateDominator? v
    predecessors := ← predecessors atlas v
    successors := ← successors atlas v }

/-- The lines of a listing of the whole atlas. -/
def listing (atlas : Atlas) : Except Fault (List String) := do
  let counts ← extent atlas
  let summaries ← atlas.ids.mapM (summary atlas)
  return ("ExecutionGraph: " ++ counts.text) ::
    summaries.map fun summary => "  " ++ summary.text

/-- The statements of a drawing. -/
def drawing (atlas : Atlas) (style : DrawingStyle) : Except Fault (List Statement) := do
  let ranks ← if style.showRanks then ranking atlas else pure []
  let clauses ← atlas.ids.mapM (clause atlas)
  let pairs ← edges atlas
  return (atlas.ids.zip clauses).map
      (fun entry => atlas.vertexStatement style entry.1 entry.2) ++
    atlas.origin?.toList.map Statement.origin ++
    pairs.map fun edge => .edge edge.1 edge.2 (ranks.lookup edge.2)

end Strict

/-! ## Closing in place -/

/-- Close the decision that a clause observes, in the atlas at hand.  The atlas is
there also after a fault, as it was when the fault occurred. -/
def closeInPlace (clause : Clause) : ExceptT Fault (StateM Atlas) Unit := do
  let v ← MonadExcept.ofExcept ((← get).decisionVertex clause)
  modify fun atlas => { atlas with closed := atlas.closed.add v }

end Atlas

end Concolic
