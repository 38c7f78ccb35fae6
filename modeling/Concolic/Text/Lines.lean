/-!
# Lines

A line feed ends a line, and a carriage return right before it belongs to the
end of the line.  What follows the last line feed is a line too, unless it is
empty.
-/

namespace Concolic

namespace Text

/-- The pieces of a text between the places where the separator stands. -/
def fields (separator : Char) : List Char → List (List Char)
  | [] => [[]]
  | c :: rest =>
      if c = separator then [] :: fields separator rest
      else (fields separator rest).modifyHead (c :: ·)

/-- A line without the carriage return at its end. -/
def withoutReturn (line : List Char) : List Char :=
  if line.getLast? = some '\r' then line.dropLast else line

/-- The lines of a text. -/
def lines (text : String) : List String :=
  let pieces := fields '\n' text.toList
  let ended := pieces.dropLast.map withoutReturn
  let begun := pieces.getLast?.toList.filter fun piece => !piece.isEmpty
  (ended ++ begun).map String.ofList

end Text

end Concolic
