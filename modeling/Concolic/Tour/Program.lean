import Concolic.Trace

/-!
# The sample program

The tour observes runs of a small program on two integers:

    L0: x, y = input()
    L1: if x > y:
    L2:     t = x - y
    L3:     switch t: 1, 2, 3, default
        else:
    L4:     if x == 0:
    L5:         r = 0
    L6: return

Its three decisions are of the three kinds that can be completed: a conditional
jump, a switch with a default, and a comparison whose instruction does not say
how many outcomes it has.
-/

namespace Concolic

namespace Tour

/-- What is observed at `L1`: whether `x > y` holds. -/
def comparison (holds : Bool) : Clause :=
  .jump 1 (.equal (.compare .gt (.var "x") (.var "y")) (.bool holds))

/-- The key of the switch at `L3` under which a difference falls; the default
has the key `-1`. -/
def switchKey (difference : Int) : Int :=
  if 1 ≤ difference ∧ difference ≤ 3 then difference else -1

/-- What is observed at `L3`: the key that the switch selected. -/
def selection (key : Int) : Clause :=
  ⟨⟨3⟩, .switch 3, ⟨.decision, .equal (.var "t") (.int key)⟩⟩

/-- What is observed at `L4`: whether `x` is zero. -/
def zeroTest (isZero : Bool) : Clause :=
  ⟨⟨4⟩, .other, ⟨.decision,
    if isZero then .equal (.var "x") (.int 0) else .distinct (.var "x") (.int 0)⟩⟩

/-- What is observed between the first comparison and the return. -/
def body (x y : Int) : Trace :=
  if x > y then [.effect 2 "t = x - y", selection (switchKey (x - y))]
  else if x = 0 then [zeroTest true, .effect 5 "r = 0"]
  else [zeroTest false]

/-- The trace of the sample program on two inputs. -/
def sampleRun (x y : Int) : Trace :=
  [.effect 0 "x, y = input()", comparison (x > y)] ++ body x y ++ [.effect 6 "return"]

end Tour

end Concolic
