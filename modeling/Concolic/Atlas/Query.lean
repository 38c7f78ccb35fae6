import Concolic.Atlas.Routes

/-!
# Queries about a target

To turn a run off at a target decision, a solver has to be told the earlier
decisions on the way there.  A query lists the vertices of those that matter.
It follows a recorded path back from the target and leaves out the target
itself, every repetition, and every vertex that dominates the target: its
condition holds on every route and so cannot make a difference.  At most a
given number of vertices is kept, the most recent ones.
-/

namespace Concolic

/-- The earlier decisions that matter on one recorded way to a target. -/
structure Query where
  /-- The decision to be turned. -/
  target : Nat
  /-- Vertices of earlier decisions, the most recent first. -/
  ancestors : List Nat
  /-- The latest run that came this way. -/
  trace : Trace
  /-- The decisions of the way, in order. -/
  path : Path
  deriving DecidableEq

namespace Atlas

/-- The vertices of earlier decisions on `path` that matter to `target`, the
most recent first and at most `limit` of them. -/
def ancestors (atlas : Atlas) (target : Nat) (path : Path) (limit : Nat) : List Nat :=
  let dominators := atlas.dominators target
  let relevant := (atlas.itinerary path).reverse.filter fun v =>
    v != target && !dominators.contains v
  (Roster.ofList relevant).toList.take limit

/-- One query for each path that was recorded at `target`, in the order of
recording; none if `target` is no decision. -/
def queries (atlas : Atlas) (target limit : Nat) : List Query :=
  (atlas.recordsAt target).entries.map fun entry =>
    { target, ancestors := atlas.ancestors target entry.1 limit
      trace := entry.2, path := entry.1 }

/-- The queries of the size that the settings ask for. -/
def standardQueries (atlas : Atlas) (target : Nat) : List Query :=
  atlas.queries target atlas.settings.ancestorLimit

/-- The clauses of the ancestors in a query. -/
def conditions (atlas : Atlas) (query : Query) : List Clause :=
  query.ancestors.filterMap atlas.clause?

end Atlas

end Concolic
