import Concolic.Atlas.Basic
import Concolic.Outcome

/-!
# When a decision is complete

The outcomes of a decision are the vertices that runs reached at that point:
the successors of its predecessors.  If nothing precedes it, it opened a run,
and its outcomes are the decisions at the same location that opened a run.  The
decision is complete when their number is exactly the number of outcomes that
it can have.  A larger number belongs to a place where several ways meet, and
says nothing about a single decision.
-/

namespace Concolic

namespace Atlas

/-- The vertices that count as outcomes of the decision at `v`, in ascending
order. -/
def outcomeIds (atlas : Atlas) (v : Nat) : List Nat :=
  match atlas.predecessors v with
  | [] => atlas.entryList.filter fun e => atlas.isDecision e &&
      (atlas.clause? e).map Clause.location == (atlas.clause? v).map Clause.location
  | before => ascending atlas.size (before.flatMap atlas.successors)

/-- The vertices that count as outcomes of the decision at `v`, which has to be
a vertex of the atlas. -/
def outcomes (atlas : Atlas) (v : Nat) : Except Fault (List Nat) :=
  atlas.checked v (atlas.outcomeIds v)

/-- The number of distinct outcomes seen for the decision at `v`. -/
def outcomeCount (atlas : Atlas) (v : Nat) : Except Fault Nat :=
  return (← atlas.outcomes v).length

/-- Were exactly as many outcomes seen at `v` as its decision can have? -/
def isComplete (atlas : Atlas) (v : Nat) : Except Fault Bool :=
  match atlas.clause? v with
  | none => .ok false
  | some clause => do
      match ← clause.threshold with
      | none => return false
      | some count => return (atlas.outcomeIds v).length == count

end Atlas

end Concolic
