/-!
# Sets of vertices in ascending order

Vertices are numbers below a size.  A set of them, given as a list in any
order and with repetitions, is shown in ascending order.

## Main results

* `mem_ascending`: the members are those of the list, as far as they are below
  the size.
* `pairwise_ascending`: the order is strictly ascending.
-/

namespace Concolic

/-- The numbers below `size` that occur in `members`, in ascending order. -/
def ascending (size : Nat) (members : List Nat) : List Nat :=
  let marks := members.foldl (fun marks v => marks.setIfInBounds v true)
    (Array.replicate size false)
  (List.range size).filter fun v => marks[v]?.getD false

section marking

private theorem getD_foldl_mark (members : List Nat) (marks : Array Bool) (v : Nat)
    (hv : v < marks.size) :
    (members.foldl (fun marks v => marks.setIfInBounds v true) marks)[v]?.getD false = true ↔
      marks[v]?.getD false = true ∨ v ∈ members := by
  induction members generalizing marks with
  | nil => simp
  | cons u us ih =>
    rw [List.foldl_cons, ih _ (by simpa using hv), Array.getElem?_setIfInBounds]
    by_cases h : u = v
    · subst h
      simp [hv]
    · simp [h, Ne.symm h]

end marking

theorem mem_ascending {size : Nat} {members : List Nat} {v : Nat} :
    v ∈ ascending size members ↔ v < size ∧ v ∈ members := by
  simp only [ascending, List.mem_filter, List.mem_range]
  refine and_congr_right fun hv => ?_
  rw [getD_foldl_mark members _ v (by simpa using hv)]
  simp [hv]

theorem pairwise_ascending (size : Nat) (members : List Nat) :
    (ascending size members).Pairwise (· < ·) :=
  List.pairwise_lt_range.sublist List.filter_sublist

end Concolic
