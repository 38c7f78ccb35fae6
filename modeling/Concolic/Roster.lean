/-!
# Rosters

A roster is a set that remembers in which order its members came: a member
that comes again changes nothing, a new one goes to the end.  The position of
a member therefore never changes, which is what lets positions serve as lasting
names of the members.

## Main results

* `Roster.mem_addAll`: what joined is exactly what was there or was offered.
* `Roster.prefix_addAll`: nothing that is on a roster ever moves.
* `Roster.get?_eq_some_iff`: a position and the member found there determine
  each other.
-/

namespace Concolic

/-- A list without repetitions, in order of arrival. -/
structure Roster (α : Type) where
  toList : List α
  nodup : toList.Nodup
  deriving DecidableEq

namespace Roster

variable {α : Type}

instance : EmptyCollection (Roster α) := ⟨⟨[], List.nodup_nil⟩⟩

instance : Inhabited (Roster α) := ⟨∅⟩

instance : Membership α (Roster α) := ⟨fun roster x => x ∈ roster.toList⟩

theorem mem_toList {roster : Roster α} {x : α} : x ∈ roster.toList ↔ x ∈ roster :=
  Iff.rfl

@[simp] theorem not_mem_empty (x : α) : x ∉ (∅ : Roster α) :=
  List.not_mem_nil

@[ext] theorem ext_toList {left right : Roster α} (h : left.toList = right.toList) :
    left = right := by
  cases left
  cases right
  cases h
  rfl

/-- The number of members. -/
def size (roster : Roster α) : Nat :=
  roster.toList.length

/-- The member at a position. -/
def get? (roster : Roster α) (position : Nat) : Option α :=
  roster.toList[position]?

variable [DecidableEq α]

instance (x : α) (roster : Roster α) : Decidable (x ∈ roster) :=
  inferInstanceAs (Decidable (x ∈ roster.toList))

/-! ## Joining a roster -/

/-- Put `x` at the end, unless it is on the roster already. -/
def add (roster : Roster α) (x : α) : Roster α :=
  if h : x ∈ roster.toList then roster
  else ⟨roster.toList ++ [x], by
    refine List.nodup_append.2 ⟨roster.nodup, by simp, ?_⟩
    rintro a ha b hb rfl
    exact h (List.mem_singleton.1 hb ▸ ha)⟩

/-- Add the members of a list, one after the other. -/
def addAll (roster : Roster α) (xs : List α) : Roster α :=
  xs.foldl add roster

/-- The distinct members of a list, by first occurrence. -/
def ofList (xs : List α) : Roster α :=
  addAll ∅ xs

theorem add_of_mem {roster : Roster α} {x : α} (h : x ∈ roster) : roster.add x = roster := by
  rw [add, dif_pos (mem_toList.2 h)]

theorem toList_add_of_not_mem {roster : Roster α} {x : α} (h : x ∉ roster) :
    (roster.add x).toList = roster.toList ++ [x] := by
  rw [add, dif_neg (mt mem_toList.1 h)]

@[simp] theorem mem_add {roster : Roster α} {x y : α} :
    y ∈ roster.add x ↔ y ∈ roster ∨ y = x := by
  by_cases h : x ∈ roster
  · rw [add_of_mem h]
    exact ⟨Or.inl, fun hy => hy.elim id fun e => e ▸ h⟩
  · rw [← mem_toList, toList_add_of_not_mem h, List.mem_append, List.mem_singleton, mem_toList]

theorem prefix_add (roster : Roster α) (x : α) :
    roster.toList <+: (roster.add x).toList := by
  by_cases h : x ∈ roster
  · simp [add_of_mem h]
  · rw [toList_add_of_not_mem h]
    exact List.prefix_append _ _

@[simp] theorem addAll_nil (roster : Roster α) : roster.addAll [] = roster := rfl

@[simp] theorem addAll_cons (roster : Roster α) (x : α) (xs : List α) :
    roster.addAll (x :: xs) = (roster.add x).addAll xs := rfl

theorem addAll_append (roster : Roster α) (xs ys : List α) :
    roster.addAll (xs ++ ys) = (roster.addAll xs).addAll ys :=
  List.foldl_append

@[simp] theorem mem_addAll {roster : Roster α} {xs : List α} {y : α} :
    y ∈ roster.addAll xs ↔ y ∈ roster ∨ y ∈ xs := by
  induction xs generalizing roster with
  | nil => simp
  | cons x xs ih => rw [addAll_cons, ih, mem_add, List.mem_cons, or_assoc]

theorem prefix_addAll (roster : Roster α) (xs : List α) :
    roster.toList <+: (roster.addAll xs).toList := by
  induction xs generalizing roster with
  | nil => exact List.prefix_refl _
  | cons x xs ih => exact (prefix_add roster x).trans (ih (roster.add x))

@[simp] theorem mem_ofList {xs : List α} {y : α} : y ∈ ofList xs ↔ y ∈ xs := by
  simp [ofList]

/-! ## Positions -/

/-- The position of `x`; for a stranger, one past the last position. -/
def position (roster : Roster α) (x : α) : Nat :=
  roster.toList.idxOf x

/-- The position of `x`, if it is on the roster. -/
def position? (roster : Roster α) (x : α) : Option Nat :=
  if x ∈ roster then some (roster.position x) else none

theorem get?_eq_some_iff {roster : Roster α} {i : Nat} {x : α} :
    roster.get? i = some x ↔ x ∈ roster ∧ roster.position x = i := by
  unfold get? position
  constructor
  · intro h
    obtain ⟨hlt, rfl⟩ := List.getElem?_eq_some_iff.1 h
    exact ⟨List.getElem_mem hlt, roster.nodup.idxOf_getElem i hlt⟩
  · rintro ⟨hx, rfl⟩
    have hlt : roster.toList.idxOf x < roster.toList.length :=
      List.idxOf_lt_length_iff.2 hx
    rw [List.getElem?_eq_getElem hlt, List.getElem_idxOf hlt]

theorem position?_eq_some_iff {roster : Roster α} {i : Nat} {x : α} :
    roster.position? x = some i ↔ roster.get? i = some x := by
  rw [get?_eq_some_iff, position?]
  split <;> simp_all

end Roster

end Concolic
