/-!
# Requests in sequence

A request is answered or refused, and a sequence of them is refused by the first that
is.  Lists are filtered, mapped and folded by such requests.  If all of them are
answered, this is what the pure operation would give.

## Main results

* `filterM_cons`: a filter, one test at a time.
* `mapM_eq_ok_map`, `filterM_eq_ok_filter`, `foldlM_eq_ok_foldl`: requests that are all
  answered.
-/

namespace Concolic

theorem ok_bind {α β ε : Type} (x : α) (f : α → Except ε β) :
    (Except.ok x >>= f) = f x := rfl

theorem error_bind {α β ε : Type} (e : ε) (f : α → Except ε β) :
    (Except.error e >>= f) = .error e := rfl

/-- What was computed from a result was computed from a success. -/
theorem exists_of_map_eq_ok {α β ε : Type} {result : Except ε α} {f : α → β} {y : β}
    (h : result.map f = .ok y) : ∃ x, result = .ok x ∧ f x = y := by
  cases result with
  | error e => cases h
  | ok x => exact ⟨x, rfl, Except.ok.inj h⟩

section

variable {α β ε : Type} {xs : List α}

/-! ## Filters -/

private theorem filterAuxM_eq_map (f : α → Except ε Bool) (xs acc : List α) :
    xs.filterAuxM f acc = (xs.filterAuxM f []).map (· ++ acc) := by
  induction xs generalizing acc with
  | nil => rfl
  | cons x xs ih =>
      rw [List.filterAuxM, List.filterAuxM]
      cases f x with
      | error e => rfl
      | ok passed =>
          rw [ok_bind, ok_bind, ih, ih (cond passed [x] [])]
          cases xs.filterAuxM f [] with
          | error e => rfl
          | ok kept => cases passed <;> simp [Except.map]

/-- A filter tests the members of a list one after the other. -/
theorem filterM_cons (f : α → Except ε Bool) (x : α) (xs : List α) :
    (x :: xs).filterM f = f x >>= fun passed =>
      (xs.filterM f).map fun kept => if passed then x :: kept else kept := by
  rw [List.filterM, List.filterM, List.filterAuxM]
  cases f x with
  | error e => rfl
  | ok passed =>
      rw [ok_bind, ok_bind, filterAuxM_eq_map]
      cases xs.filterAuxM f [] with
      | error e => rfl
      | ok kept => cases passed <;> simp [Except.map, bind, Except.bind, pure, Except.pure]

variable {f : α → Except ε Bool}

/-- If every test succeeds, so does the filter, and it keeps what passes. -/
theorem filterM_eq_ok_filter {keep : α → Bool} (h : ∀ x ∈ xs, f x = .ok (keep x)) :
    xs.filterM f = .ok (xs.filter keep) := by
  induction xs with
  | nil => rfl
  | cons x xs ih =>
      obtain ⟨hx, hxs⟩ := List.forall_mem_cons.1 h
      rw [filterM_cons, hx, ok_bind, ih hxs, List.filter_cons]
      rfl

/-! ## Maps and folds -/

theorem mapM_eq_ok_map {f : α → Except ε β} {g : α → β} (h : ∀ x ∈ xs, f x = .ok (g x)) :
    xs.mapM f = .ok (xs.map g) := by
  induction xs with
  | nil => rfl
  | cons x xs ih =>
      obtain ⟨hx, hxs⟩ := List.forall_mem_cons.1 h
      rw [List.mapM_cons, hx, ok_bind, ih hxs]
      rfl

theorem exists_mapM_eq_ok {f : α → Except ε β} (h : ∀ x ∈ xs, ∃ y, f x = .ok y) :
    ∃ ys, xs.mapM f = .ok ys := by
  induction xs with
  | nil => exact ⟨[], rfl⟩
  | cons x xs ih =>
      obtain ⟨⟨y, hx⟩, hxs⟩ := List.forall_mem_cons.1 h
      obtain ⟨ys, hys⟩ := ih hxs
      rw [List.mapM_cons, hx, ok_bind, hys]
      exact ⟨_, rfl⟩

/-- A fold succeeds if its steps do as long as something holds that they keep. -/
theorem foldlM_eq_ok_foldl {f : β → α → Except ε β} {g : β → α → β} {P : β → Prop}
    {start : β} (hstart : P start)
    (hstep : ∀ b, P b → ∀ x ∈ xs, f b x = .ok (g b x) ∧ P (g b x)) :
    xs.foldlM f start = .ok (xs.foldl g start) := by
  induction xs generalizing start with
  | nil => rfl
  | cons x xs ih =>
      obtain ⟨hfirst, hnext⟩ := hstep start hstart x List.mem_cons_self
      rw [List.foldlM_cons, hfirst, ok_bind, List.foldl_cons]
      exact ih hnext fun b hb y hy => hstep b hb y (List.mem_cons_of_mem x hy)

end

end Concolic
