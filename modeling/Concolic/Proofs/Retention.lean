import Concolic.Proofs.Persistence

/-!
# What becomes of the outcomes of a decision

Edges and entries only accumulate, but the outcomes of a decision are read off them
in one of two ways.  If something precedes the decision, its outcomes are whatever
followed one of its predecessors.  If nothing does, they are the decisions at its
location that opened a run.  As long as the same way applies, no outcome is lost.
The first run that comes to the decision from another clause changes the way, and
then those outcomes are left that followed a clause before the decision.  This
happens once at most, since a predecessor is there for good.

## Main results

* `Atlas.mem_outcomeIds_append`: an outcome is kept as long as the decision is not
  newly reached.
* `Atlas.mem_outcomeIds_of_newlyReached`: which outcomes are left when it is.
* `Atlas.outcomes_kept_unless_reached`: both, and how often it happens.
-/

namespace Concolic

theorem follows_append_iff {events more : List Event} {first second : Clause} :
    Follows (events ++ more) first second ↔
      Follows events first second ∨ Follows more first second := by
  simp only [Follows, runs_append, List.mem_append, or_and_right, exists_or]

namespace Atlas

/-- Between two moments the decision at `v` got its first predecessor. -/
def NewlyReached (atlas later : Atlas) (v : Nat) : Prop :=
  atlas.predecessors v = [] ∧ later.predecessors v ≠ []

section

variable {settings : Settings} {events more : List Event} {atlas later : Atlas} {v : Nat}

theorem not_newlyReached_iff :
    ¬NewlyReached atlas later v ↔
      atlas.predecessors v ≠ [] ∨ later.predecessors v = [] := by
  rw [NewlyReached, not_and_or, not_not]

variable (h : (empty settings).replay events = .ok atlas)
variable (hlater : (empty settings).replay (events ++ more) = .ok later)

include h hlater

/-! ## Predecessors and entries -/

theorem mem_predecessors_append {u : Nat} (hu : u ∈ atlas.predecessors v) :
    u ∈ later.predecessors v := by
  rw [mem_predecessors_iff hlater]
  exact mem_successors_append h hlater ((mem_predecessors_iff h).1 hu)

theorem predecessors_ne_nil_append (hne : atlas.predecessors v ≠ []) :
    later.predecessors v ≠ [] := by
  obtain ⟨u, hu⟩ := List.exists_mem_of_ne_nil _ hne
  exact List.ne_nil_of_mem (mem_predecessors_append h hlater hu)

theorem mem_entries_append (hv : v ∈ atlas.entries) : v ∈ later.entries := by
  obtain ⟨clause, hopens, hclause⟩ := (mem_entries_iff h).1 hv
  exact (mem_entries_iff hlater).2
    ⟨clause, hopens.append more, clause?_append h hlater hclause⟩

/-! ## Outcomes that are kept -/

/-- **An outcome is kept** as long as the decision is not newly reached. -/
theorem mem_outcomeIds_append (hsame : ¬NewlyReached atlas later v) {s : Nat}
    {clause : Clause} (hv : atlas.clause? v = some clause)
    (hs : s ∈ atlas.outcomeIds v) : s ∈ later.outcomeIds v := by
  have hvLater := clause?_append h hlater hv
  rcases not_newlyReached_iff.1 hsame with hne | hnil
  · -- what followed a predecessor follows it still
    rw [mem_outcomeIds_of_ne_nil hne] at hs
    obtain ⟨p, hp, hs⟩ := hs
    rw [mem_outcomeIds_of_ne_nil (predecessors_ne_nil_append h hlater hne)]
    exact ⟨p, mem_predecessors_append h hlater hp, mem_successors_append h hlater hs⟩
  · -- what opened a run at the location did so for good
    have hnilBefore : atlas.predecessors v = [] := by
      by_contra hne
      exact predecessors_ne_nil_append h hlater hne hnil
    rw [mem_outcomeIds_of_nil hnilBefore hv] at hs
    obtain ⟨hentry, opening, hopening, hkind, hlocation⟩ := hs
    rw [mem_outcomeIds_of_nil hnil hvLater]
    exact ⟨mem_entries_append h hlater hentry, opening,
      clause?_append h hlater hopening, hkind, hlocation⟩

/-- So the number of outcomes does not fall. -/
theorem length_outcomeIds_append (hsame : ¬NewlyReached atlas later v) {clause : Clause}
    (hv : atlas.clause? v = some clause) :
    (atlas.outcomeIds v).length ≤ (later.outcomeIds v).length := by
  have hnodup : (atlas.outcomeIds v).Nodup :=
    (pairwise_outcomeIds atlas v).imp Nat.ne_of_lt
  refine hnodup.length_le_of_subset ?_
  intro s hs
  exact mem_outcomeIds_append h hlater hsame hv hs

/-! ## Decisions that are newly reached -/

omit hlater in
/-- Whatever precedes a decision that is newly reached, a later run brought it. -/
theorem follows_of_newlyReached (hnew : NewlyReached atlas later v) {clause : Clause}
    (hv : atlas.clause? v = some clause) {before : Clause} :
    Follows (events ++ more) before clause ↔ Follows more before clause := by
  rw [follows_append_iff]
  refine or_iff_right_of_imp ?_
  intro hfollows
  exact absurd ⟨before, hfollows⟩ ((predecessors_eq_nil_iff h hv).1 hnew.1)

/-- A decision is newly reached only if a later run comes to it from some clause. -/
theorem exists_follows_of_newlyReached (hnew : NewlyReached atlas later v)
    {clause : Clause} (hv : atlas.clause? v = some clause) :
    ∃ before, Follows more before clause := by
  by_contra hnone
  refine hnew.2 ((predecessors_eq_nil_iff hlater (clause?_append h hlater hv)).2 ?_)
  intro hfollows
  obtain ⟨before, hfollows⟩ := hfollows
  exact hnone ⟨before, (follows_of_newlyReached h hnew hv).1 hfollows⟩

/-- **Which outcomes are left** when a decision is newly reached: those that
followed a clause from which a later run came to the decision. -/
theorem mem_outcomeIds_of_newlyReached (hnew : NewlyReached atlas later v)
    {clause : Clause} (hv : atlas.clause? v = some clause) {s : Nat} {outcome : Clause}
    (hs : atlas.clause? s = some outcome) :
    s ∈ later.outcomeIds v ↔
      ∃ before, Follows more before clause ∧ Follows (events ++ more) before outcome := by
  rw [mem_outcomeIds_iff hlater (clause?_append h hlater hv) (clause?_append h hlater hs)]
  constructor
  · intro houtcome
    rcases houtcome with ⟨before, hfollows, hother⟩ | ⟨hnever, -⟩
    · exact ⟨before, (follows_of_newlyReached h hnew hv).1 hfollows, hother⟩
    · obtain ⟨before, hfollows⟩ := exists_follows_of_newlyReached h hlater hnew hv
      exact absurd ⟨before, (follows_of_newlyReached h hnew hv).2 hfollows⟩ hnever
  · intro hshared
    obtain ⟨before, hfollows, hother⟩ := hshared
    exact Or.inl ⟨before, (follows_of_newlyReached h hnew hv).2 hfollows, hother⟩

/-- **Outcomes are kept, unless the decision is newly reached.**  Whatever happens to
an atlas later, a decision keeps its outcomes, and their number does not fall, as
long as it does not get its first predecessor.  It gets one from a run that comes to
it from another clause.  Then it keeps itself and those outcomes that followed such
a clause.  No further event does this to it again. -/
theorem outcomes_kept_unless_reached {clause : Clause}
    (hv : atlas.clause? v = some clause) (hkind : clause.isDecision = true) :
    (¬NewlyReached atlas later v →
      (∃ seen kept, atlas.outcomes v = .ok seen ∧ later.outcomes v = .ok kept ∧
        seen ⊆ kept) ∧
      ∃ n m, atlas.outcomeCount v = .ok n ∧ later.outcomeCount v = .ok m ∧ n ≤ m) ∧
    (NewlyReached atlas later v →
      (∃ before, Follows more before clause) ∧
      ∃ kept, later.outcomes v = .ok kept ∧ v ∈ kept ∧
        ∀ s outcome, atlas.clause? s = some outcome → (s ∈ kept ↔ ∃ before,
          Follows more before clause ∧ Follows (events ++ more) before outcome)) ∧
    (NewlyReached atlas later v → ∀ further moment,
      (empty settings).replay (events ++ more ++ further) = .ok moment →
        ∀ last, ¬NewlyReached moment last v) := by
  have hvLater := clause?_append h hlater hv
  have hsize := lt_size_of_clause? hv
  have hsizeLater := lt_size_of_clause? hvLater
  refine ⟨?_, ?_, ?_⟩
  · intro hsame
    refine ⟨⟨_, _, outcomes_eq_ok_iff.2 ⟨hsize, rfl⟩,
      outcomes_eq_ok_iff.2 ⟨hsizeLater, rfl⟩, ?_⟩, ?_⟩
    · intro s hs
      exact mem_outcomeIds_append h hlater hsame hv hs
    · exact ⟨_, _, outcomeCount_eq_ok_iff.2 ⟨hsize, rfl⟩,
        outcomeCount_eq_ok_iff.2 ⟨hsizeLater, rfl⟩,
        length_outcomeIds_append h hlater hsame hv⟩
  · intro hnew
    refine ⟨exists_follows_of_newlyReached h hlater hnew hv, _,
      outcomes_eq_ok_iff.2 ⟨hsizeLater, rfl⟩, ?_, ?_⟩
    · exact self_mem_outcomeIds hlater (by rw [isDecision_of_clause? hvLater, hkind])
    · intro s outcome hs
      exact mem_outcomeIds_of_newlyReached h hlater hnew hv hs
  · intro hnew further moment hmoment last hagain
    exact predecessors_ne_nil_append hlater hmoment hnew.2 hagain.1

end

/-- Two runs begin with the first decision and take different ways. -/
def openedBothWays : List Event :=
  [.run [Tour.comparison true], .run [Tour.comparison false]]

/-- A later run comes to the first decision after the input.  The way that it takes
is left with one outcome of two; the other way still has both. -/
theorem outcomes_kept_unless_reached_input :
    ∃ atlas later kept n, (empty {}).replay openedBothWays = .ok atlas ∧
      (empty {}).replay (openedBothWays ++ [.run (decidingRun true)]) = .ok later ∧
      atlas.outcomes 0 = .ok [0, 1] ∧ NewlyReached atlas later 0 ∧
      later.outcomes 0 = .ok kept ∧ 0 ∈ kept ∧ 1 ∉ kept ∧
      ¬NewlyReached atlas later 1 ∧ later.outcomeCount 1 = .ok n ∧ 2 ≤ n := by
  have hvalue : ((empty {}).replay openedBothWays).map (fun atlas =>
      (atlas.clause? 0, atlas.clause? 1, atlas.predecessors 0, atlas.outcomeIds 0,
        atlas.outcomeIds 1)) =
        .ok (some (Tour.comparison true), some (Tour.comparison false), [], [0, 1],
          [0, 1]) := by
    rfl
  have hlaterValue : ((empty {}).replay (openedBothWays ++ [.run (decidingRun true)])).map
      (fun later => (later.predecessors 0, later.predecessors 1)) = .ok ([2], []) := by
    rfl
  obtain ⟨atlas, h, hvalue⟩ := exists_of_map_eq_ok hvalue
  obtain ⟨later, hlater, hlaterValue⟩ := exists_of_map_eq_ok hlaterValue
  simp only [Prod.mk.injEq] at hvalue hlaterValue
  obtain ⟨hzero, hone, hnil, hids, hotherIds⟩ := hvalue
  obtain ⟨hreached, hunreached⟩ := hlaterValue
  have hnew : NewlyReached atlas later 0 := by
    refine ⟨hnil, ?_⟩
    rw [hreached]
    exact List.cons_ne_nil _ _
  have hsame : ¬NewlyReached atlas later 1 := not_newlyReached_iff.2 (Or.inr hunreached)
  obtain ⟨-, hleft, -⟩ := outcomes_kept_unless_reached h hlater hzero rfl
  obtain ⟨hkeeps, -⟩ := outcomes_kept_unless_reached h hlater hone rfl
  obtain ⟨-, kept, hkept, hself, hmem⟩ := hleft hnew
  obtain ⟨-, m, n, hm, hn, hle⟩ := hkeeps hsame
  have htwo : 2 = m := by
    rw [← (outcomeCount_eq_ok_iff.1 hm).2, hotherIds]
    rfl
  refine ⟨atlas, later, kept, n, h, hlater,
    outcomes_eq_ok_iff.2 ⟨lt_size_of_clause? hzero, hids⟩, hnew, hkept, hself, ?_, hsame, hn,
    htwo ▸ hle⟩
  rw [hmem 1 _ hone]
  rintro ⟨before, -, hother⟩
  -- no run observed anything before it took the other way
  simp only [Follows, ← mem_zip_tail_iff] at hother
  simp only [openedBothWays, runs, Event.trace?, decidingRun, List.cons_append,
    List.nil_append, List.filterMap_cons, List.filterMap_nil, List.mem_cons,
    List.not_mem_nil, or_false, exists_eq_or_imp, exists_eq_left, List.tail_cons,
    List.zip_cons_cons, List.zip_nil_right, Prod.mk.injEq, false_or] at hother
  exact absurd hother.2 (by decide)

/-- A run that comes to the first decision from the input takes an outcome from it. -/
theorem not_forall_outcomes_kept :
    ¬∀ settings events trace atlas next v seen kept,
      (empty settings).replay events = .ok atlas → atlas.addRun trace = .ok next →
        atlas.isDecision v = true → atlas.outcomes v = .ok seen →
          next.outcomes v = .ok kept → seen ⊆ kept ∧ seen.length ≤ kept.length := by
  intro hall
  have hvalue : ((empty {}).replay openedBothWays).map (fun atlas =>
      (atlas.size, atlas.isDecision 0, atlas.outcomeIds 0)) = .ok (2, true, [0, 1]) := by
    rfl
  have hnextValue : ((empty {}).replay (openedBothWays ++ [.run (decidingRun true)])).map
      (fun next => (next.size, next.outcomeIds 0)) = .ok (3, [0]) := by
    rfl
  obtain ⟨atlas, h, hvalue⟩ := exists_of_map_eq_ok hvalue
  obtain ⟨next, hreplay, hnextValue⟩ := exists_of_map_eq_ok hnextValue
  obtain ⟨before, hbefore, hnext⟩ := replay_append_eq_ok.1 hreplay
  cases h.symm.trans hbefore
  simp only [Prod.mk.injEq] at hvalue hnextValue
  have hseen : atlas.outcomes 0 = .ok [0, 1] :=
    outcomes_eq_ok_iff.2 ⟨by omega, hvalue.2.2⟩
  have hkept : next.outcomes 0 = .ok [0] := outcomes_eq_ok_iff.2 ⟨by omega, hnextValue.2⟩
  have hlength := (hall {} _ _ atlas next 0 _ _ h hnext hvalue.2.1 hseen hkept).2
  exact absurd hlength (by decide)

end Atlas

end Concolic
