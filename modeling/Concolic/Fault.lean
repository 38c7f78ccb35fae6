import Concolic.Clause

/-!
# Faults

Every way in which a question about clauses, or about the map of runs, can be
ill-posed.  A fault carries its cause; its wording is a matter of `message`
alone.
-/

namespace Concolic

/-- Why a request was refused. -/
inductive Fault where
  /-- The keys of a jump table run from `low` down to a smaller `high`. -/
  | emptyTable (low high : Int)
  /-- A decision was asked for, and the clause records an effect. -/
  | notDecision (clause : Clause)
  /-- The clause was observed in no run. -/
  | neverObserved (clause : Clause)
  /-- No vertex of the map carries this number. -/
  | unknownVertex (id : Nat)
  /-- More clauses of a path were asked for than it has. -/
  | pathTooShort (wanted present : Nat)
  /-- Every number that a vertex can carry is taken. -/
  | mapFull
  deriving DecidableEq

/-- The wording of a fault. -/
def Fault.message : Fault → String
  | .emptyTable low high =>
      "Table switch range " ++ toString low ++ "..=" ++ toString high ++ " is empty"
  | .notDecision clause => "Clause `" ++ clause.text ++ "` is not a Path clause"
  | .neverObserved clause => "Clause `" ++ clause.text ++ "` was never ingested"
  | .unknownVertex id => "Vertex v" ++ toString id ++ " does not exist"
  | .pathTooShort wanted present =>
      "Prefix length " ++ toString wanted ++ " exceeds path length " ++ toString present
  | .mapFull => "Graph is full"

end Concolic
