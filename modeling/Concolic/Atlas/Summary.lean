import Concolic.Atlas.Routes

/-!
# Summaries

What an atlas holds, for readers: counts of the whole, a summary of each
vertex, and a listing of all of them.
-/

namespace Concolic

/-- The name under which a vertex is shown, such as `v3`. -/
def vertexName (v : Nat) : String :=
  "v" ++ toString v

/-- Vertices as they are listed in summaries. -/
def vertexListing (vs : List Nat) : String :=
  "[" ++ ", ".intercalate (vs.map fun v => "VertexId(" ++ toString v ++ ")") ++ "]"

/-! ## Counts -/

/-- The extent of an atlas. -/
structure Extent where
  vertices : Nat
  decisions : Nat
  closed : Nat
  edges : Nat
  depth : Nat
  deriving DecidableEq

/-- The extent of an atlas as shown. -/
def Extent.text (extent : Extent) : String :=
  toString extent.vertices ++ " vertices (" ++ toString extent.decisions ++ " branches, " ++
    toString extent.closed ++ " exhausted), " ++ toString extent.edges ++ " edges, depth " ++
    toString extent.depth

/-- The extent of an atlas. -/
def Atlas.extent (atlas : Atlas) : Extent where
  vertices := atlas.size
  decisions := atlas.decisions.length
  closed := atlas.closed.size
  edges := atlas.edges.size
  depth := atlas.depth

/-! ## Vertices -/

/-- What a summary says of a decision. -/
structure DecisionSummary where
  /-- Distinct outcomes seen. -/
  seen : Nat
  /-- Distinct outcomes that complete the decision, if any number does. -/
  threshold : Option Nat
  isClosed : Bool
  rank : Option Nat
  /-- The number of recorded paths. -/
  paths : Nat
  deriving DecidableEq

/-- What a summary says of a vertex. -/
structure VertexSummary where
  id : Nat
  clause : Clause
  isOrigin : Bool
  /-- Present at decisions. -/
  decision : Option DecisionSummary
  immediateDominator : Option Nat
  predecessors : List Nat
  successors : List Nat
  deriving DecidableEq

/-- The part of a summary about a decision, as shown. -/
def DecisionSummary.text (decision : DecisionSummary) : String :=
  " outcomes=" ++ toString decision.seen ++ "/" ++
    decision.threshold.elim "inf" toString ++
    (if decision.isClosed then " exhausted" else "") ++
    decision.rank.elim "" (fun rank => " depth=" ++ toString rank) ++
    " paths=" ++ toString decision.paths

/-- A summary as shown, on one line. -/
def VertexSummary.text (summary : VertexSummary) : String :=
  vertexName summary.id ++ (if summary.isOrigin then " (origin)" else "") ++
    " `" ++ summary.clause.text ++ "`" ++
    summary.decision.elim "" DecisionSummary.text ++
    summary.immediateDominator.elim "" (fun v => " idom=" ++ vertexName v) ++
    " preds=" ++ vertexListing summary.predecessors ++
    " succs=" ++ vertexListing summary.successors

namespace Atlas

/-- What there is to say of the decision at `v`, which a clause observes. -/
def decisionSummary (atlas : Atlas) (v : Nat) (clause : Clause) :
    Except Fault DecisionSummary := do
  return {
    seen := (atlas.outcomeIds v).length
    threshold := ← clause.threshold
    isClosed := atlas.isClosed v
    rank := atlas.rank? v
    paths := (atlas.recordsAt v).size }

/-- The summary of a vertex of the atlas. -/
def vertexSummary (atlas : Atlas) (v : Nat) : Except Fault VertexSummary :=
  match atlas.clause? v with
  | none => .error (.unknownVertex v)
  | some clause => do
      let decision ←
        if clause.isDecision then some <$> atlas.decisionSummary v clause else pure none
      return {
        id := v
        clause := clause
        isOrigin := atlas.origin? == some v
        decision := decision
        immediateDominator := atlas.immediateDominator? v
        predecessors := atlas.predecessors v
        successors := atlas.successors v }

/-- The lines of a listing of the whole atlas. -/
def listing (atlas : Atlas) : Except Fault (List String) := do
  let summaries ← atlas.ids.mapM atlas.vertexSummary
  return ("ExecutionGraph: " ++ atlas.extent.text) ::
    summaries.map fun summary => "  " ++ summary.text

/-- A listing of the whole atlas, each line ended. -/
def listingText (atlas : Atlas) : Except Fault String := do
  return String.join ((← atlas.listing).map (· ++ "\n"))

end Atlas

end Concolic
