import Concolic.Atlas.Completion

/-!
# Adding runs to an atlas

A new run first leaves its marks on the map: its clauses get vertices, its
steps become edges, its start becomes an entry, and its path to each of its
decisions is recorded.  Only then, on the final edges, are decisions judged.
The run can have changed the number of outcomes of the decisions that it
visited and of their fellow outcomes, so these are gone through, and a decision
that is closed already is passed over.  A decision that is complete is closed,
and stays closed.

A decision may also be closed from outside, for instance after a solver has
shown that its remaining outcomes cannot occur.
-/

namespace Concolic

namespace Atlas

/-- The vertices of a list of clauses; each clause has to have one. -/
def itinerary (atlas : Atlas) (clauses : List Clause) : List Nat :=
  clauses.map atlas.clauses.position

/-- Enter the observations of a run, without judging any decision. -/
def extend (atlas : Atlas) (trace : Trace) : Atlas :=
  let clauses := atlas.clauses.addAll trace
  let stops := trace.map clauses.position
  { atlas with
    clauses := clauses
    edges := atlas.edges.addAll (stops.zip stops.tail)
    entries := atlas.entries.addAll (stops.take 1)
    records := atlas.records.recordAll trace.decisions.stages trace
    depth := max atlas.depth trace.depth }

/-! ## Judging -/

/-- Close the decision at `v` if it is complete. -/
def judge (atlas : Atlas) (v : Nat) : Except Fault Atlas := do
  return if ← atlas.isComplete v then { atlas with closed := atlas.closed.add v } else atlas

/-- Judge the decision at `v` and then its other outcomes, as far as they are
decisions that are open now. -/
def judgeAround (atlas : Atlas) (v : Nat) : Except Fault Atlas :=
  let candidates := (v :: (atlas.outcomeIds v).filter (· != v)).filter fun u =>
    atlas.isDecision u && !atlas.isClosed u
  candidates.foldlM judge atlas

/-- Judge around one decision after the other. -/
def review (atlas : Atlas) (order : List Nat) : Except Fault Atlas :=
  order.foldlM judgeAround atlas

/-- The vertices of the decisions of a run, each once and by its first visit. -/
def visited (atlas : Atlas) (trace : Trace) : List Nat :=
  (Roster.ofList (atlas.itinerary trace.decisions)).toList

/-- Add a run.  This fails only on a decision that has no well-formed number of
outcomes. -/
def addRun (atlas : Atlas) (trace : Trace) : Except Fault Atlas :=
  let grown := atlas.extend trace
  grown.review (grown.visited trace)

/-! ## Closing from outside -/

/-- Close the decision that a clause observes. -/
def close (atlas : Atlas) (clause : Clause) : Except Fault Atlas := do
  let v ← atlas.decisionVertex clause
  return { atlas with closed := atlas.closed.add v }

end Atlas

/-! ## Histories -/

/-- What can happen to an atlas. -/
inductive Event where
  | run (trace : Trace)
  | close (clause : Clause)
  deriving DecidableEq

namespace Atlas

/-- The atlas after an event. -/
def apply (atlas : Atlas) : Event → Except Fault Atlas
  | .run trace => atlas.addRun trace
  | .close clause => atlas.close clause

/-- The atlas after a sequence of events, all of which have to succeed. -/
def replay (atlas : Atlas) (events : List Event) : Except Fault Atlas :=
  events.foldlM apply atlas

end Atlas

end Concolic
