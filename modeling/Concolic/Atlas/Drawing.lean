import Concolic.Atlas.Routes

/-!
# Drawing an atlas

An atlas is drawn in the DOT language of graph layout tools.  Effects are boxes
and decisions ellipses, a closed decision is filled, the origin stands on top
with a double border, and an edge into a decision carries the rank of the
decision.  A drawing is a list of statements.  Each begins on a new line, and
only a label may hold further line breaks.

The text between the quotes of a label is arbitrary, so a quote and a backslash
in it are each written with a backslash in front.
-/

namespace Concolic

/-- The choices in a drawing. -/
structure DrawingStyle where
  effectShape : String := "box"
  decisionShape : String := "ellipse"
  closedFill : String := "lightgray"
  /-- Are edges into decisions labelled with the rank? -/
  showRanks : Bool := true
  deriving DecidableEq

/-! ## Statements -/

/-- One statement of a drawing. -/
inductive Statement where
  /-- A vertex with its shape, the colour that fills it, and its label. -/
  | vertex (id : Nat) (shape : String) (fill : Option String) (label : String)
  /-- The vertex to be placed on top. -/
  | origin (id : Nat)
  /-- An edge, perhaps labelled with a rank. -/
  | edge (tail head : Nat) (rank : Option Nat)
  deriving DecidableEq

/-- How a character is written inside a quoted label. -/
def escapeChar : Char → List Char
  | '\\' => ['\\', '\\']
  | '"' => ['\\', '"']
  | c => [c]

/-- A text as written inside a quoted label. -/
def escape (label : String) : String :=
  String.ofList (label.toList.flatMap escapeChar)

/-- A statement as written, with its line end. -/
def Statement.text : Statement → String
  | .vertex id shape fill label =>
      toString id ++ " [shape=" ++ shape ++
        fill.elim "" (fun color => ", style=filled, fillcolor=" ++ color) ++
        ", label=\"" ++ escape label ++ "\"];\n"
  | .origin id => "\x7b rank=source; " ++ toString id ++ " [peripheries=2]; \x7d\n"
  | .edge tail head rank =>
      toString tail ++ " -> " ++ toString head ++
        rank.elim "" (fun n => " [label=\"" ++ toString n ++ "\"]") ++ ";\n"

namespace Atlas

/-! ## The drawing of an atlas -/

/-- The statement that draws a vertex. -/
def vertexStatement (atlas : Atlas) (style : DrawingStyle) (v : Nat) (clause : Clause) :
    Statement :=
  if clause.isDecision then
    .vertex v style.decisionShape
      (if atlas.isClosed v then some style.closedFill else none) clause.predicate.text
  else .vertex v style.effectShape none clause.predicate.text

/-- The statements of a drawing: the vertices, the origin, and the edges. -/
def drawing (atlas : Atlas) (style : DrawingStyle) : List Statement :=
  let ranking := if style.showRanks then atlas.ranking else []
  (atlas.ids.zip atlas.clauses.toList).map
      (fun entry => atlas.vertexStatement style entry.1 entry.2) ++
    atlas.origin?.toList.map Statement.origin ++
    atlas.edgeList.map fun edge => .edge edge.1 edge.2 (ranking.lookup edge.2)

/-- The drawing of an atlas as written. -/
def dotText (atlas : Atlas) (style : DrawingStyle := {}) : String :=
  "digraph \x7b\n" ++ String.join ((atlas.drawing style).map Statement.text) ++ "\x7d\n"

end Atlas

end Concolic
