import Concolic.FlowGraph.Ranking

/-!
# Sweeps in machine words

Ranks may be kept in a table of 64-bit words, in which the largest word marks a vertex
that has no rank.  Then two things can go wrong that cannot with unbounded numbers.  A
rank and a toll may be too large together for a word, and a rank may be mistaken for the
mark.  The first is a fault here.  It occurs as soon as such a sum is formed, also if the
sum would not have been an improvement.
-/

namespace Concolic

namespace FlowGraph

/-- What stops a sweep in machine words. -/
inductive WordFault where
  /-- The sum of two words is too large for a word. -/
  | tooLarge (left right : UInt64)
  /-- The table has no place for the vertex. -/
  | noPlace (v : Nat)
  deriving DecidableEq

/-- The sum of two words. -/
def wordSum (left right : UInt64) : Except WordFault UInt64 :=
  if left.toNat + right.toNat < UInt64.size then .ok (left + right)
  else .error (.tooLarge left right)

/-- The mark of a vertex without a rank: the largest word. -/
def unranked : UInt64 := 18446744073709551615

/-- The toll of entering a vertex, as a word. -/
def wordToll (tolled : Nat → Bool) (v : Nat) : UInt64 :=
  if tolled v then 1 else 0

/-- A sweep in progress, with its ranks in machine words. -/
structure WordSweep where
  queue : List Nat
  ranks : Array UInt64

namespace WordSweep

/-- A rank as it stands in the table. -/
def word : Option Nat → UInt64
  | some rank => UInt64.ofNat rank
  | none => unranked

/-- A sweep with its ranks written as words. -/
def ofSweep (sweep : Sweep) : WordSweep :=
  ⟨sweep.queue, sweep.ranks.map word⟩

/-- The word in the table for `v`. -/
def rank (sweep : WordSweep) (v : Nat) : Except WordFault UInt64 :=
  match sweep.ranks[v]? with
  | some rank => .ok rank
  | none => .error (.noPlace v)

/-- Enter `v` at a total toll of `before` and its own. -/
def enter (tolled : Nat → Bool) (before : UInt64) (sweep : WordSweep) (v : Nat) :
    Except WordFault WordSweep := do
  let total ← wordSum before (wordToll tolled v)
  let known ← sweep.rank v
  if total < known then
    return {
      queue := if tolled v then sweep.queue ++ [v] else v :: sweep.queue
      ranks := sweep.ranks.setIfInBounds v total }
  else return sweep

/-- Leave the first vertex of the queue and enter its successors. -/
def step (graph : FlowGraph) (tolled : Nat → Bool) (sweep : WordSweep) :
    Except WordFault WordSweep :=
  match sweep.queue with
  | [] => .ok sweep
  | u :: rest => do
      let before ← sweep.rank u
      (graph.successors u).foldlM (enter tolled before) { sweep with queue := rest }

/-- The sweep at its beginning: the root alone has a rank. -/
def start (graph : FlowGraph) (tolled : Nat → Bool) : WordSweep :=
  let blank := Array.replicate graph.size unranked
  if graph.root < graph.size then
    ⟨[graph.root], blank.setIfInBounds graph.root (wordToll tolled graph.root)⟩
  else ⟨[], blank⟩

/-- The sweep after a number of steps. -/
def after (graph : FlowGraph) (tolled : Nat → Bool) : Nat → Except WordFault WordSweep
  | 0 => .ok (start graph tolled)
  | count + 1 => do step graph tolled (← after graph tolled count)

end WordSweep

end FlowGraph

end Concolic
