import Concolic.Text.Lines

/-!
# Notices

A notice tells what the program has just done.  It is shown with the time of
day in front of it, which no two runs have in common, so a line that begins
with a time of day is no part of the lasting output.  Only the first line of a
notice is dated by the program: where its text has line feeds, the lines after
the first stand bare and do belong to the output, unless they happen to begin
with a time of day themselves.
-/

namespace Concolic

namespace Tour

/-- Does a line begin with a time of day?  That is three pairs of digits with
colons between them, and a blank. -/
def isDated (line : String) : Bool :=
  match line.toList with
  | h :: h' :: ':' :: m :: m' :: ':' :: s :: s' :: ' ' :: _ =>
      [h, h', m, m', s, s'].all Char.isDigit
  | _ => false

/-- The lines of a notice that stay when the dated ones are left out. -/
def bareLines (notice : String) : List String :=
  (Text.lines (notice ++ "\n")).tail.filter fun line => !isDated line

/-- The notice that a drawing was written. -/
def drawingNotice (path : String) : String :=
  "DOT written to " ++ path

end Tour

end Concolic
