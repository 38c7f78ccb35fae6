import Concolic.Fault

/-!
# How many outcomes a decision has

A decision is finished once all its outcomes were seen, so for each clause we
need the number of outcomes that its decision can have.  Most instructions fix
it: a conditional jump has two ways out, a switch or a jump table has one for
each key and one more for its default.  Where the instruction leaves it open,
a comparison of two terms still either holds or fails.  A test of a runtime
type is never finished, because the program may meet new types at any time;
this is settled first, so the instruction of a type test is not looked at.

## Main results

* `Clause.threshold_eq_error_iff`: a clause has no well-formed number of
  outcomes exactly when it is a jump table without keys that tests no type.
-/

namespace Concolic

/-- Outcome counts are 64-bit words and stay at the largest one. -/
def outcomeLimit : Nat := Nat.pow 2 64 - 1

/-- The number of ways out that the instruction itself fixes. -/
def Instruction.ways : Instruction → Except Fault (Option Nat)
  | .branch => .ok (some 2)
  | .switch targets => .ok (some (min (targets + 1) outcomeLimit))
  | .table low high =>
      if low ≤ high then .ok (some (min ((high - low).toNat + 2) outcomeLimit))
      else .error (.emptyTable low high)
  | .other => .ok none

/-- The number of distinct outcomes that finishes the decision of a clause, or
`none` if no number does. -/
def Clause.threshold (clause : Clause) : Except Fault (Option Nat) :=
  if clause.fact.isTypeCheck then .ok none
  else do
    match ← clause.instruction.ways with
    | some count => return some count
    | none => return if clause.fact.isComparison then some 2 else none

theorem Instruction.ways_eq_error_iff {instruction : Instruction} {fault : Fault} :
    instruction.ways = .error fault ↔
      ∃ low high, instruction = .table low high ∧ high < low ∧
        fault = .emptyTable low high := by
  cases instruction with
  | table low high =>
    simp only [ways, table.injEq]
    constructor
    · intro h
      split at h
      · cases h
      · next hlt => exact ⟨low, high, ⟨rfl, rfl⟩, Int.not_le.1 hlt, (Except.error.inj h).symm⟩
    · rintro ⟨_, _, ⟨rfl, rfl⟩, hlt, rfl⟩
      rw [if_neg (Int.not_le.2 hlt)]
  | _ => simp [ways]

theorem Clause.threshold_eq_error_iff {clause : Clause} {fault : Fault} :
    clause.threshold = .error fault ↔
      clause.fact.isTypeCheck = false ∧ ∃ low high,
        clause.instruction = .table low high ∧ high < low ∧
          fault = .emptyTable low high := by
  rw [← Instruction.ways_eq_error_iff]
  unfold threshold
  cases clause.fact.isTypeCheck with
  | true => simp
  | false =>
    cases clause.instruction.ways with
    | error e => simp [bind, Except.bind]
    | ok count => cases count <;> simp [bind, Except.bind, pure, Except.pure]

end Concolic
