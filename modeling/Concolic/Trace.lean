import Concolic.Fault

/-!
# Traces and paths

A trace is the whole observation of one run, in the order of execution.  The
path of a trace keeps its decisions only; the path *to* a decision is an
initial part of it, and ends with that decision.
-/

namespace Concolic

/-- The clauses of one run, in order of execution. -/
abbrev Trace := List Clause

/-- Decisions of a run, in order, from its start to some decision in it. -/
abbrev Path := List Clause

namespace Trace

/-- The decisions of a run. -/
def decisions (trace : Trace) : Path :=
  trace.filter Clause.isDecision

/-- The number of decisions of a run. -/
def depth (trace : Trace) : Nat :=
  trace.decisions.length

/-- A trace as shown: its clauses in brackets, separated by commas. -/
def text (trace : Trace) : String :=
  "[" ++ ", ".intercalate (trace.map Clause.text) ++ "]"

end Trace

namespace Path

/-- The first `count` clauses of a path. -/
def cut (path : Path) (count : Nat) : Except Fault Path :=
  if count ≤ path.length then .ok (path.take count)
  else .error (.pathTooShort count path.length)

/-- The paths to each decision of a path: its non-empty initial parts, the
shortest first. -/
def stages (path : Path) : List Path :=
  (List.range path.length).map fun n => path.take (n + 1)

theorem mem_stages {path stage : Path} :
    stage ∈ stages path ↔ stage ≠ [] ∧ stage <+: path := by
  simp only [stages, List.mem_map, List.mem_range]
  constructor
  · rintro ⟨n, hn, rfl⟩
    refine ⟨?_, List.take_prefix _ _⟩
    cases path with
    | nil => simp at hn
    | cons clause rest => simp
  · rintro ⟨hne, hle⟩
    have hpos : 0 < stage.length := List.length_pos_iff.2 hne
    refine ⟨stage.length - 1, ?_, ?_⟩
    · have := hle.length_le
      omega
    · rw [Nat.sub_add_cancel hpos]
      exact (List.prefix_iff_eq_take.1 hle).symm

end Path

end Concolic
