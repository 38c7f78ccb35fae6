/-!
# Symbolic terms

A concolic run keeps, next to the values it computes, the expressions those
values came from.  The map of runs never evaluates an expression: it only
compares terms as values, shows them, and asks whether a term is a test of a
runtime type, because no number of observed outcomes completes such a test.
-/

namespace Concolic

/-- The comparison in a relational term. -/
inductive Relation where
  | eq | ne | lt | le | gt | ge
  deriving DecidableEq

/-- The sign of a comparison. -/
def Relation.text : Relation → String
  | .eq => "=="
  | .ne => "!="
  | .lt => "<"
  | .le => "<="
  | .gt => ">"
  | .ge => ">="

/-- An expression over the inputs of a run. -/
inductive Term where
  | var (name : String)
  | int (value : Int)
  | bool (value : Bool)
  | compare (relation : Relation) (left right : Term)
  /-- Has the subject this runtime type? -/
  | isA (subject : Term) (typeName : String)
  deriving DecidableEq

namespace Term

/-- A term in infix form; every compound term carries its own parentheses. -/
def text : Term → String
  | .var name => name
  | .int value => toString value
  | .bool true => "true"
  | .bool false => "false"
  | .compare relation left right =>
      "(" ++ left.text ++ " " ++ relation.text ++ " " ++ right.text ++ ")"
  | .isA subject typeName => "(" ++ subject.text ++ " instanceof " ++ typeName ++ ")"

/-- Is the outermost operation a test of a runtime type? -/
def isTypeTest : Term → Bool
  | .isA .. => true
  | _ => false

end Term

end Concolic
