import Concolic.Atlas.Growth
import Concolic.Logbook
import Mathlib

/-!
# Gazetteers

An atlas keeps what was observed in lists, one for each kind of thing.  A gazetteer keeps
the same by vertex.  Each vertex has a page with its clause and its neighbours, and the
page of a decision has a logbook of the paths to it.  An index leads from a clause to its
page.

A run is entered clause by clause.  Each clause is looked up in the index, or gets the
next page; it is joined to the clause before it, or becomes an entry; and if it is a
decision, the path so far is cut from the decisions of the run and goes into its logbook.
After the last clause the decisions of the run are judged.  All of this refers to pages by
their numbers.  Every number is looked up when it is used, and one that leads to no page
is a fault, as is a cut beyond the end of a path and a page for which there is no number.

## Main results

* `Gazetteer.addRun`: a run, entered clause by clause and judged.
* `Gazetteer.replay`: a gazetteer after a sequence of events.
-/

namespace Concolic

/-! ## Pages -/

/-- What is kept about one vertex. -/
structure Page where
  clause : Clause
  /-- The vertices that some run visited directly before. -/
  predecessors : Finset Nat
  /-- The vertices that some run visited directly after. -/
  successors : Finset Nat
  /-- The paths to a decision; an effect has no logbook. -/
  book : Option Logbook

namespace Page

/-- The page of a new vertex. -/
def ofClause (clause : Clause) : Page :=
  ⟨clause, ∅, ∅, if clause.isDecision then some ∅ else none⟩

/-- Is this the page of a decision? -/
def isDecision (page : Page) : Bool :=
  page.book.isSome

end Page

/-- A map of runs, kept by vertex. -/
structure Gazetteer where
  settings : Settings
  /-- The pages, by the numbers of their vertices. -/
  pages : Array Page
  /-- The number of each observed clause. -/
  index : Std.HashMap Clause Nat
  /-- The vertex at which the first run began. -/
  origin? : Option Nat
  /-- The vertices at which some run began. -/
  entries : Finset Nat
  /-- The decisions that need no further run. -/
  closed : Finset Nat
  /-- The largest number of decisions in one run. -/
  depth : Nat

/-- Vertices are numbered by 32-bit words, and the largest word is left out. -/
def vertexLimit : Nat := UInt32.size - 1

namespace Gazetteer

/-- The gazetteer of no run. -/
def empty (settings : Settings) : Gazetteer :=
  ⟨settings, #[], ∅, none, ∅, ∅, 0⟩

/-- The page of a vertex. -/
def page (gazetteer : Gazetteer) (v : Nat) : Except Fault Page :=
  match gazetteer.pages[v]? with
  | some page => .ok page
  | none => .error (.unknownVertex v)

/-- Change the page of a vertex. -/
def update (gazetteer : Gazetteer) (v : Nat) (change : Page → Page) :
    Except Fault Gazetteer := do
  let page ← gazetteer.page v
  return { gazetteer with pages := gazetteer.pages.setIfInBounds v (change page) }

/-- The vertex of a clause that was observed. -/
def vertex (gazetteer : Gazetteer) (clause : Clause) : Except Fault Nat :=
  match gazetteer.index[clause]? with
  | some v => .ok v
  | none => .error (.neverObserved clause)

/-- The vertex of a decision that was observed. -/
def decisionVertex (gazetteer : Gazetteer) (clause : Clause) : Except Fault Nat :=
  if clause.isDecision then gazetteer.vertex clause else .error (.notDecision clause)

/-! ## Entering a run -/

/-- Look a clause up, and give it the next page if it has none. -/
def enter (gazetteer : Gazetteer) (clause : Clause) : Except Fault (Gazetteer × Nat) :=
  match gazetteer.index[clause]? with
  | some v => .ok (gazetteer, v)
  | none =>
      let v := gazetteer.pages.size
      if v < vertexLimit then
        .ok ({ gazetteer with
          pages := gazetteer.pages.push (.ofClause clause)
          index := gazetteer.index.insert clause v
          origin? := gazetteer.origin? <|> some v }, v)
      else .error .mapFull

/-- Note that a run began at `v`. -/
def start (gazetteer : Gazetteer) (v : Nat) : Gazetteer :=
  { gazetteer with entries := insert v gazetteer.entries }

/-- Note that a run visited `v` directly after `u`. -/
def link (gazetteer : Gazetteer) (u v : Nat) : Except Fault Gazetteer := do
  let left ← gazetteer.update u fun page =>
    { page with successors := insert v page.successors }
  left.update v fun page => { page with predecessors := insert u page.predecessors }

/-- Join a visited vertex to the one before it, or note that the run began there. -/
def join (gazetteer : Gazetteer) (previous? : Option Nat) (v : Nat) :
    Except Fault Gazetteer :=
  match previous? with
  | some u => gazetteer.link u v
  | none => .ok (gazetteer.start v)

/-- Record at `v` the path to decision number `count` of a run; an effect takes no
record. -/
def record (gazetteer : Gazetteer) (v : Nat) (trace : Trace) (count : Nat) :
    Except Fault Gazetteer := do
  let path ← Excerpt.cut trace.decisions count
  gazetteer.update v fun page =>
    { page with book := page.book.map fun book => (book.record path trace).2 }

/-- How far the entering of a run has come. -/
structure Progress where
  gazetteer : Gazetteer
  /-- The vertex of the clause before. -/
  previous? : Option Nat
  /-- The number of decisions so far. -/
  count : Nat
  /-- The vertices of the decisions so far. -/
  visits : List Nat

/-- Enter the next clause of a run. -/
def advance (trace : Trace) (progress : Progress) (clause : Clause) :
    Except Fault Progress := do
  let (entered, v) ← progress.gazetteer.enter clause
  let joined ← entered.join progress.previous? v
  if clause.isDecision then
    let count := progress.count + 1
    let recorded ← joined.record v trace count
    return ⟨recorded, some v, count, progress.visits ++ [v]⟩
  else
    return { progress with gazetteer := joined, previous? := some v }

/-! ## Judging -/

/-- A set of vertices in ascending order. -/
def listed (vertices : Finset Nat) : List Nat :=
  vertices.sort (· ≤ ·)

/-- The vertices that count as outcomes of the decision at `v`. -/
def outcomes (gazetteer : Gazetteer) (v : Nat) : Except Fault (List Nat) := do
  let own ← gazetteer.page v
  if own.predecessors = ∅ then
    (listed gazetteer.entries).filterM fun e => do
      let opening ← gazetteer.page e
      return opening.isDecision && opening.clause.location == own.clause.location
  else
    let parts ← (listed own.predecessors).mapM fun p => do
      return listed (← gazetteer.page p).successors
    return listed parts.flatten.toFinset

/-- Were exactly as many outcomes seen at `v` as its decision can have? -/
def isComplete (gazetteer : Gazetteer) (v : Nat) : Except Fault Bool := do
  let own ← gazetteer.page v
  if own.isDecision then
    match ← own.clause.threshold with
    | none => return false
    | some count => return (← gazetteer.outcomes v).length == count
  else return false

/-- Close the decision at `v` if it is complete. -/
def judge (gazetteer : Gazetteer) (v : Nat) : Except Fault Gazetteer := do
  return if ← gazetteer.isComplete v then
    { gazetteer with closed := insert v gazetteer.closed }
  else gazetteer

/-- Judge the decision at `v` and then its other outcomes, as far as they are decisions
that are open now. -/
def judgeAround (gazetteer : Gazetteer) (v : Nat) : Except Fault Gazetteer := do
  let siblings ← gazetteer.outcomes v
  let candidates ← (v :: siblings.filter (· != v)).filterM fun u => do
    return (← gazetteer.page u).isDecision && !decide (u ∈ gazetteer.closed)
  candidates.foldlM judge gazetteer

/-! ## Events -/

/-- Add a run.  A run without clauses changes nothing. -/
def addRun (gazetteer : Gazetteer) (trace : Trace) : Except Fault Gazetteer :=
  if trace.isEmpty then .ok gazetteer
  else do
    let progress ← trace.foldlM (advance trace) ⟨gazetteer, none, 0, []⟩
    let judged ← (Roster.ofList progress.visits).toList.foldlM judgeAround progress.gazetteer
    return { judged with depth := max judged.depth trace.depth }

/-- Close the decision that a clause observes. -/
def close (gazetteer : Gazetteer) (clause : Clause) : Except Fault Gazetteer := do
  let v ← gazetteer.decisionVertex clause
  return { gazetteer with closed := insert v gazetteer.closed }

/-- The gazetteer after an event. -/
def apply (gazetteer : Gazetteer) : Event → Except Fault Gazetteer
  | .run trace => gazetteer.addRun trace
  | .close clause => gazetteer.close clause

/-- The gazetteer after a sequence of events, all of which have to succeed. -/
def replay (gazetteer : Gazetteer) (events : List Event) : Except Fault Gazetteer :=
  events.foldlM apply gazetteer

end Gazetteer

end Concolic
