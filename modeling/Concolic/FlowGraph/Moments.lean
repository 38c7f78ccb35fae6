import Concolic.FlowGraph.Ranking

/-!
# The moments of a sweep

A step of a sweep leaves a vertex and enters all that follows it.  Seen from nearer, it
is a row of moves: first the vertex is taken off the queue, then its successors are
entered one after the other, and each of them may join the queue at either end.  What
happens between two moves is a moment of the sweep.

A moment also remembers what the sweep itself has no use for: which vertices joined the
queue so far, and which left it, with the ranks that they had then.  This is to say how
often a vertex joins, and in which order vertices leave.
-/

namespace Concolic

namespace FlowGraph

namespace Sweep

/-- A sweep between two of its moves. -/
structure Moment where
  sweep : Sweep
  /-- The rank of the vertex that was left last; zero before the first. -/
  level : Nat
  /-- The successors of this vertex that are still to be entered. -/
  ahead : List Nat
  /-- The vertices that joined the queue, the latest first. -/
  joined : List Nat
  /-- The vertices that left the queue, each with its rank when it did, the latest first. -/
  left : List (Nat × Nat)

/-- Does a vertex join the queue when it is entered? -/
def joins (tolled : Nat → Bool) (before : Nat) (sweep : Sweep) (v : Nat) : Bool :=
  improves (if tolled v then before + 1 else before) (sweep.rank? v)

namespace Moment

/-- The first moment. -/
def first (graph : FlowGraph) (tolled : Nat → Bool) : Moment :=
  { sweep := start graph tolled
    level := 0
    ahead := []
    joined := (start graph tolled).queue
    left := [] }

/-- The moment after `v` was entered. -/
def enter (tolled : Nat → Bool) (moment : Moment) (v : Nat) (rest : List Nat) : Moment :=
  { moment with
    sweep := Sweep.enter tolled moment.level moment.sweep v
    ahead := rest
    joined :=
      if joins tolled moment.level moment.sweep v then v :: moment.joined
      else moment.joined }

/-- The moment after `u` was taken off the queue. -/
def leave (graph : FlowGraph) (moment : Moment) (u rank : Nat) (rest : List Nat) : Moment :=
  { sweep := { moment.sweep with queue := rest }
    level := rank
    ahead := graph.successors u
    joined := moment.joined
    left := (u, rank) :: moment.left }

/-- The moment after the next move.  A vertex is left when nothing is to be entered; one
without a rank would be dropped. -/
def next (graph : FlowGraph) (tolled : Nat → Bool) (moment : Moment) : Moment :=
  match moment.ahead, moment.sweep.queue with
  | v :: rest, _ => moment.enter tolled v rest
  | [], u :: rest =>
      match moment.sweep.rank? u with
      | none => { moment with sweep := { moment.sweep with queue := rest } }
      | some rank => moment.leave graph u rank rest
  | [], [] => moment

/-- The sweep when all that is ahead has been entered. -/
def completed (tolled : Nat → Bool) (moment : Moment) : Sweep :=
  moment.ahead.foldl (Sweep.enter tolled moment.level) moment.sweep

/-- Is there no move left? -/
def isOver (moment : Moment) : Bool :=
  moment.ahead.isEmpty && moment.sweep.queue.isEmpty

end Moment

/-- The moment of a sweep after a number of moves. -/
def moment (graph : FlowGraph) (tolled : Nat → Bool) : Nat → Moment
  | 0 => .first graph tolled
  | moves + 1 => (moment graph tolled moves).next graph tolled

end Sweep

end FlowGraph

end Concolic
