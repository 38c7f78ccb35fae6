import Concolic.Atlas.Query
import Concolic.Atlas.Drawing
import Concolic.Atlas.Summary
import Concolic.Tour.Options
import Concolic.Tour.Program

/-!
# The report of the tour

The tour observes the sample program on a fixed list of inputs, taken from the
beginning again when it is used up, and then reports on the atlas: a listing of
it, and for each rank the decisions that are still open, each with the earlier
decisions that a solver would have to be told.
-/

namespace Concolic

namespace Tour

/-- The inputs of the tour. -/
def schedule : List (Int × Int) :=
  [(5, 4), (0, 3), (7, 5), (2, 9), (9, 6), (10, 1), (0, 0), (4, 3)]

/-- The inputs of a number of runs. -/
def inputs (runs : Nat) : List (Int × Int) :=
  (List.replicate (runs / schedule.length + 1) schedule).flatten.take runs

/-- Add the runs of the sample program on the given inputs. -/
def observe (atlas : Atlas) (inputs : List (Int × Int)) : Except Fault Atlas :=
  inputs.foldlM (fun atlas input => atlas.addRun (sampleRun input.1 input.2)) atlas

/-! ## Lines -/

/-- The line about one query. -/
def queryLine (atlas : Atlas) (query : Query) : String :=
  "    via " ++ toString query.path.length ++ " path clauses: [" ++
    ", ".intercalate ((atlas.conditions query).map Clause.text) ++ "]"

/-- The lines about one open decision. -/
def targetLines (atlas : Atlas) (target : Nat) : List String :=
  ("  target " ++ vertexName target ++ " `" ++
      (atlas.clause? target).elim "" Clause.text ++ "`") ::
    (atlas.standardQueries target).map (queryLine atlas)

/-- The lines about one rank. -/
def layerLines (atlas : Atlas) (rank : Nat) : List String :=
  let targets := atlas.openLayer rank
  ("depth " ++ toString rank ++ ": " ++ toString (atlas.layer rank).length ++
      " branches, " ++ toString targets.length ++ " open") ::
    targets.flatMap (targetLines atlas)

/-- What the tour leaves behind. -/
structure Report where
  lines : List String
  /-- The file of the drawing and its text, if one was asked for. -/
  drawing : Option (String × String)
  deriving DecidableEq

/-- The tour. -/
def report (options : Options) (host : Host := {}) : Except Fault Report := do
  let atlas ← observe (Atlas.empty { ancestorLimit := options.k }) (inputs options.runs)
  return {
    lines := options.text host :: (← atlas.listing) ++ "" :: atlas.rounds.flatMap (layerLines atlas)
    drawing := options.dot.map fun file => (file, atlas.dotText) }

end Tour

end Concolic
