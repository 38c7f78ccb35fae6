import Concolic.Term

/-!
# Clauses

A clause is one observation of a run: at a location of the program, an
instruction of some kind either decided something or had an effect.  Clauses
are plain values.  Two clauses are the same exactly when all their parts are,
whichever run they come from and wherever in it they stand; their text form
is for readers only, and different clauses may share it.
-/

namespace Concolic

/-- A place in the program under observation. -/
structure Location where
  number : Nat
  deriving DecidableEq

/-- A location as shown, such as `L7`. -/
def Location.text (location : Location) : String :=
  "L" ++ toString location.number

/-- The kind of instruction found at a location. -/
inductive Instruction where
  /-- A conditional jump with two ways out. -/
  | branch
  /-- A switch with this many listed targets and a default. -/
  | switch (targets : Nat)
  /-- A jump table over the keys `low, …, high` and a default. -/
  | table (low high : Int)
  /-- Any instruction that does not fix its number of ways out. -/
  | other
  deriving DecidableEq

/-- Whether a clause records a decision or an effect. -/
inductive Kind where
  | decision
  | effect
  deriving DecidableEq

/-! ## Facts and predicates -/

/-- What was observed. -/
inductive Fact where
  | equal (left right : Term)
  | distinct (left right : Term)
  /-- Words that nobody looks into. -/
  | remark (words : String)
  deriving DecidableEq

namespace Fact

/-- A fact as shown. -/
def text : Fact → String
  | .equal left right => left.text ++ " == " ++ right.text
  | .distinct left right => left.text ++ " != " ++ right.text
  | .remark words => words

/-- Does the fact compare two terms? -/
def isComparison : Fact → Bool
  | .remark _ => false
  | _ => true

/-- Does the fact compare something with the test of a runtime type?  Only the
outermost operation of each side counts. -/
def isTypeCheck : Fact → Bool
  | .equal left right | .distinct left right => left.isTypeTest || right.isTypeTest
  | .remark _ => false

end Fact

/-- A fact together with its role in the run. -/
structure Predicate where
  kind : Kind
  fact : Fact
  deriving DecidableEq

/-- A predicate as shown: a path decision is tagged `[P]`, an effect `[E]`. -/
def Predicate.text : Predicate → String
  | ⟨.decision, fact⟩ => "[P] " ++ fact.text
  | ⟨.effect, fact⟩ => "[E] " ++ fact.text

/-! ## Clauses -/

/-- One observation at one location. -/
structure Clause where
  location : Location
  instruction : Instruction
  predicate : Predicate
  deriving DecidableEq

namespace Clause

/-- What the clause observed. -/
def fact (clause : Clause) : Fact :=
  clause.predicate.fact

/-- Does the clause record a decision? -/
def isDecision (clause : Clause) : Bool :=
  clause.predicate.kind == .decision

/-- A clause as shown, such as `L7: [P] a == true`. -/
def text (clause : Clause) : String :=
  clause.location.text ++ ": " ++ clause.predicate.text

/-- The observation that a conditional jump went the way `fact` says. -/
def jump (location : Nat) (fact : Fact) : Clause :=
  ⟨⟨location⟩, .branch, ⟨.decision, fact⟩⟩

/-- The observation of an effect. -/
def effect (location : Nat) (words : String) : Clause :=
  ⟨⟨location⟩, .other, ⟨.effect, .remark words⟩⟩

end Clause

end Concolic
