import Concolic.Text.Quoted

/-!
# The host of the tour

Two things that the tour shows are settled by the system that carries it out: which
characters leave no mark when they are printed, and what becomes of a text that is
written to a path.  A host tells both.
-/

namespace Concolic

namespace Tour

/-- What becomes of a text that is written to a path. -/
inductive Destination where
  /-- It becomes a file of this name in the working directory. -/
  | here (name : String)
  /-- It is printed. -/
  | output
  /-- It is taken by a device or becomes a file in some other directory. -/
  | elsewhere
  /-- It cannot be written. -/
  | refused
  deriving DecidableEq

/-- What the tour has to know of the system. -/
structure Host where
  /-- Does a character leave no mark of its own? -/
  isUnseen : Char → Bool := Text.isControl
  /-- Where does a path lead from the working directory? -/
  destination : String → Destination := .here

end Tour

end Concolic
