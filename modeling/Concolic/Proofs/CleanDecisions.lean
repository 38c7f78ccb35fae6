import Concolic.Proofs.Retention

/-!
# Decisions that nothing interferes with

What counts as an outcome of a decision may belong to something else, and then the
decision can be closed too early or not at all.  At a clean decision this cannot
happen.  Its arms are all decisions that need the same number of outcomes, they are
not more than that, and nothing but the arms counts: either they are all that
follows one vertex, and none of them is reached in any other way, or they are all
that opens runs at one location, and nothing comes before any of them.

Then at every moment the outcomes of an arm are the arms seen so far.  The run that
brings the last one is judged on it, and with it all the others are due.  So the
arms are closed at one moment, which is the one at which their number is reached.

## Main results

* `Atlas.mem_closed_iff_of_steady`: when an arm is closed.
* `Atlas.CleanFork.before`, `Atlas.CleanStart.before`: a decision that is clean
  was clean all the time.
* `Atlas.clean_decisions_close_together`: clean decisions, at every moment.
-/

namespace Concolic

namespace Atlas

/-- The entries at a location that are decisions. -/
def openings (atlas : Atlas) (location : Location) : List Nat :=
  atlas.entryList.filter fun v => (atlas.clause? v).any fun clause =>
    clause.isDecision && clause.location == location

/-- Decisions that all need `n` outcomes, and not more than `n` of them. -/
structure Arms (atlas : Atlas) (n : Nat) (arms : List Nat) : Prop where
  decide : ∀ v ∈ arms, ∃ clause, atlas.clause? v = some clause ∧
    clause.isDecision = true ∧ clause.threshold = .ok (some n)
  few : arms.length ≤ n

/-- What follows `p` are the arms of one decision: nothing else comes before them,
and they opened no run. -/
structure CleanFork (atlas : Atlas) (p n : Nat) : Prop
    extends Arms atlas n (atlas.successors p) where
  sole : ∀ v ∈ atlas.successors p, atlas.predecessors v = [p]
  unopened : ∀ v ∈ atlas.successors p, v ∉ atlas.entryList

/-- The decisions that open runs at a location are the arms of one decision:
nothing comes before them. -/
structure CleanStart (atlas : Atlas) (location : Location) (n : Nat) : Prop
    extends Arms atlas n (atlas.openings location) where
  unpreceded : ∀ v ∈ atlas.openings location, atlas.predecessors v = []

/-- The arms of a decision are all closed if there are `n` of them, and otherwise
none is. -/
def ClosesTogether (atlas : Atlas) (arms : List Nat) (n : Nat) : Prop :=
  ∀ v ∈ arms, (atlas.isClosed v = true ↔ arms.length = n)

section

variable {settings : Settings} {events earlier later : List Event} {atlas moment : Atlas}
variable {v p n : Nat} {location : Location}

/-! ## Arms and outcomes -/

theorem mem_openings :
    v ∈ atlas.openings location ↔ v ∈ atlas.entries ∧ ∃ clause,
      atlas.clause? v = some clause ∧ clause.isDecision = true ∧
        clause.location = location := by
  rw [openings, List.mem_filter, mem_entryList, Option.any_eq_true]
  simp only [Bool.and_eq_true, beq_iff_eq]
  constructor
  · intro hv
    exact ⟨hv.1.2, hv.2⟩
  · intro hv
    obtain ⟨hentry, clause, hclause, hmatch⟩ := hv
    exact ⟨⟨lt_size_of_clause? hclause, hentry⟩, clause, hclause, hmatch⟩

theorem pairwise_openings (atlas : Atlas) (location : Location) :
    (atlas.openings location).Pairwise (· < ·) :=
  (pairwise_ascending _ _).sublist List.filter_sublist

theorem pairwise_successors (atlas : Atlas) (p : Nat) :
    (atlas.successors p).Pairwise (· < ·) :=
  pairwise_ascending _ _

/-- The outcomes of what one vertex alone precedes are what follows that vertex. -/
theorem outcomeIds_eq_successors (hsole : atlas.predecessors v = [p]) :
    atlas.outcomeIds v = atlas.successors p := by
  refine eq_of_pairwise_lt (pairwise_outcomeIds atlas v) (pairwise_successors atlas p) ?_
  intro s
  rw [mem_outcomeIds_of_ne_nil (by rw [hsole]; exact List.cons_ne_nil _ _), hsole]
  simp

/-- The outcomes of what nothing precedes are what opens runs at its location. -/
theorem outcomeIds_eq_openings (hnil : atlas.predecessors v = [])
    (hv : v ∈ atlas.openings location) : atlas.outcomeIds v = atlas.openings location := by
  obtain ⟨-, clause, hclause, -, rfl⟩ := mem_openings.1 hv
  refine eq_of_pairwise_lt (pairwise_outcomeIds atlas v) (pairwise_openings atlas _) ?_
  intro s
  rw [mem_outcomeIds_of_nil hnil hclause, mem_openings]

/-- Only a vertex of the atlas has outcomes. -/
theorem exists_clause?_of_mem_outcomeIds (h : (empty settings).replay events = .ok atlas)
    {s : Nat} (hs : s ∈ atlas.outcomeIds v) : ∃ clause, atlas.clause? v = some clause := by
  by_cases hnil : atlas.predecessors v = []
  · simp only [outcomeIds, hnil, List.mem_filter, Bool.and_eq_true, beq_iff_eq] at hs
    obtain ⟨-, hdecision, hlocation⟩ := hs
    obtain ⟨opening, hopening, -⟩ := exists_clause?_of_isDecision hdecision
    rw [hopening, Option.map_some, eq_comm, Option.map_eq_some_iff] at hlocation
    obtain ⟨clause, hclause, -⟩ := hlocation
    exact ⟨clause, hclause⟩
  · obtain ⟨u, hu⟩ := List.exists_mem_of_ne_nil _ hnil
    obtain ⟨-, clause, -, -, hclause⟩ := (mem_edges_iff h).1 (mem_predecessors.1 hu).2
    exact ⟨clause, hclause⟩

/-! ## When an arm is closed -/

/-- The outcomes of `v` are read off the atlas in one way at all times: `v` opened
no run, or nothing comes before any of its outcomes. -/
def Steady (atlas : Atlas) (v : Nat) : Prop :=
  v ∉ atlas.entries ∨ ∀ s ∈ atlas.outcomeIds v, atlas.predecessors s = []

/-- A decision that opened no run was preceded as soon as it was there. -/
theorem predecessors_ne_nil_of_not_mem_entries
    (hmoment : (empty settings).replay earlier = .ok moment)
    (h : (empty settings).replay (earlier ++ later) = .ok atlas)
    (hentry : v ∉ atlas.entries) {clause : Clause} (hv : moment.clause? v = some clause) :
    moment.predecessors v ≠ [] := by
  intro hnil
  exact hentry (mem_entries_append hmoment h
    (mem_entries_of_predecessors_eq_nil hmoment hv hnil))

theorem Steady.not_newlyReached (hsteady : Steady atlas v)
    (hmoment : (empty settings).replay earlier = .ok moment)
    (h : (empty settings).replay (earlier ++ later) = .ok atlas)
    (hself : v ∈ atlas.outcomeIds v) {clause : Clause}
    (hv : moment.clause? v = some clause) : ¬NewlyReached moment atlas v := by
  rw [not_newlyReached_iff]
  rcases hsteady with hentry | hnone
  · exact Or.inl (predecessors_ne_nil_of_not_mem_entries hmoment h hentry hv)
  · exact Or.inr (hnone v hself)

/-- No run adds an arm to a steady decision without having it judged. -/
theorem Steady.not_lastOverlooked (hsteady : Steady atlas v)
    (h : (empty settings).replay events = .ok atlas) (hself : v ∈ atlas.outcomeIds v)
    (hdecisions : ∀ s ∈ atlas.outcomeIds v, atlas.isDecision s = true) :
    ¬LastOverlooked settings events v := by
  rintro ⟨earlier, trace, later, before, after, rfl, -, hafter, hoverlooks, -⟩
  rw [← List.singleton_append, ← List.append_assoc] at h
  obtain ⟨s, hs, hadded⟩ := hoverlooks.added
  obtain ⟨clause, hv⟩ := exists_clause?_of_mem_outcomeIds hafter hs
  have hkept : s ∈ atlas.outcomeIds v :=
    mem_outcomeIds_append hafter h (hsteady.not_newlyReached hafter h hself hv) hv hs
  have hkind : after.isDecision s = true := by
    rw [← isDecision_append hafter h (lt_size_of_mem_outcomeIds hs)]
    exact hdecisions s hkept
  rcases hoverlooks.unjudged s hs hadded with heffect | ⟨hnil, hpreceded⟩
  · rw [hkind] at heffect
    cases heffect
  · rcases hsteady with hentry | hnone
    · exact predecessors_ne_nil_of_not_mem_entries hafter h hentry hv hnil
    · exact predecessors_ne_nil_append hafter h hpreceded (hnone s hkept)

/-- **When an arm is closed**: if nothing but runs happened, a steady decision whose
outcomes are its arms is closed exactly if all arms are there. -/
theorem mem_closed_iff_of_steady (h : (empty settings).replay events = .ok atlas)
    (hruns : ∀ event ∈ events, ∃ trace, event = .run trace)
    (harms : Arms atlas n (atlas.outcomeIds v)) (hself : v ∈ atlas.outcomeIds v)
    (hsteady : Steady atlas v) :
    v ∈ atlas.closed ↔ (atlas.outcomeIds v).length = n := by
  obtain ⟨clause, hv, hkind, hthreshold⟩ := harms.decide v hself
  constructor
  · intro hclosed
    obtain ⟨earlier, later, rfl, moment, hmoment, -, hcomplete⟩ :=
      exists_complete_of_closed h hruns hclosed
    obtain ⟨other, m, hother, hneeds, hlength⟩ := isComplete_iff.1 hcomplete
    have hclause : other = clause :=
      Option.some.inj ((clause?_append hmoment h hother).symm.trans hv)
    rw [hclause, hthreshold] at hneeds
    cases hneeds
    -- the arms that completed the decision are arms still
    have hgrown := length_outcomeIds_append hmoment h
      (hsteady.not_newlyReached hmoment h hself hother) hother
    have hfew := harms.few
    omega
  · intro hlength
    have hdecisions : ∀ s ∈ atlas.outcomeIds v, atlas.isDecision s = true := by
      intro s hs
      obtain ⟨arm, harm, harmKind, -⟩ := harms.decide s hs
      rw [isDecision_of_clause? harm, harmKind]
    have hcomplete : atlas.isComplete v = .ok true :=
      isComplete_iff.2 ⟨clause, n, hv, hthreshold, hlength⟩
    exact (closed_or_lastOverlooked h (hdecisions v hself) hcomplete).resolve_right
      (hsteady.not_lastOverlooked h hself hdecisions)

theorem CleanFork.closesTogether (hclean : CleanFork atlas p n)
    (h : (empty settings).replay events = .ok atlas)
    (hruns : ∀ event ∈ events, ∃ trace, event = .run trace) :
    ClosesTogether atlas (atlas.successors p) n := by
  intro v hv
  have houtcomes := outcomeIds_eq_successors (hclean.sole v hv)
  have harms : Arms atlas n (atlas.outcomeIds v) := houtcomes ▸ hclean.toArms
  have hentry : v ∉ atlas.entries := by
    intro hentry
    exact hclean.unopened v hv (mem_entryList.2 ⟨(mem_successors.1 hv).1, hentry⟩)
  rw [isClosed_iff, ← houtcomes]
  exact mem_closed_iff_of_steady h hruns harms (houtcomes ▸ hv) (Or.inl hentry)

theorem CleanStart.closesTogether (hclean : CleanStart atlas location n)
    (h : (empty settings).replay events = .ok atlas)
    (hruns : ∀ event ∈ events, ∃ trace, event = .run trace) :
    ClosesTogether atlas (atlas.openings location) n := by
  intro v hv
  have houtcomes := outcomeIds_eq_openings (hclean.unpreceded v hv) hv
  have harms : Arms atlas n (atlas.outcomeIds v) := houtcomes ▸ hclean.toArms
  have hnone : ∀ s ∈ atlas.outcomeIds v, atlas.predecessors s = [] := by
    intro s hs
    exact hclean.unpreceded s (houtcomes ▸ hs)
  rw [isClosed_iff, ← houtcomes]
  exact mem_closed_iff_of_steady h hruns harms (houtcomes ▸ hv) (Or.inr hnone)

/-! ## Clean at every moment -/

variable (hmoment : (empty settings).replay earlier = .ok moment)
variable (h : (empty settings).replay (earlier ++ later) = .ok atlas)

include hmoment h

/-- The arms that were seen earlier were arms then. -/
theorem Arms.before {arms seen : List Nat} (harms : Arms atlas n arms)
    (hsubset : seen ⊆ arms) (hsorted : seen.Pairwise (· < ·))
    (hsize : ∀ v ∈ seen, v < moment.size) : Arms moment n seen where
  decide v hv := by
    obtain ⟨clause, hclause, hneeds⟩ := harms.decide v (hsubset hv)
    obtain ⟨other, hother⟩ := exists_clause? (hsize v hv)
    have heq : other = clause :=
      Option.some.inj ((clause?_append hmoment h hother).symm.trans hclause)
    exact ⟨other, hother, heq ▸ hneeds⟩
  few := by
    have hnodup : seen.Nodup := hsorted.imp Nat.ne_of_lt
    exact (hnodup.length_le_of_subset hsubset).trans harms.few

/-- A fork that is clean was clean all the time. -/
theorem CleanFork.before (hclean : CleanFork atlas p n) : CleanFork moment p n where
  toArms := hclean.toArms.before hmoment h
    (fun _ hv => mem_successors_append hmoment h hv) (pairwise_successors moment p)
    (fun _ hv => (mem_successors.1 hv).1)
  sole v hv := by
    have hsole := hclean.sole v (mem_successors_append hmoment h hv)
    refine eq_of_pairwise_lt (pairwise_ascending _ _) (List.pairwise_singleton _ p) ?_
    intro u
    constructor
    · intro hu
      rw [← hsole]
      exact mem_predecessors_append hmoment h hu
    · intro hu
      rw [List.mem_singleton.1 hu]
      exact (mem_predecessors_iff hmoment).2 hv
  unopened v hv hentry := by
    have hlater := mem_successors_append hmoment h hv
    exact hclean.unopened v hlater (mem_entryList.2 ⟨(mem_successors.1 hlater).1,
      mem_entries_append hmoment h (mem_entryList.1 hentry).2⟩)

theorem mem_openings_append (hv : v ∈ moment.openings location) :
    v ∈ atlas.openings location := by
  obtain ⟨hentry, clause, hclause, hmatch⟩ := mem_openings.1 hv
  exact mem_openings.2 ⟨mem_entries_append hmoment h hentry, clause,
    clause?_append hmoment h hclause, hmatch⟩

/-- A start that is clean was clean all the time. -/
theorem CleanStart.before (hclean : CleanStart atlas location n) :
    CleanStart moment location n where
  toArms := hclean.toArms.before hmoment h (fun _ hv => mem_openings_append hmoment h hv)
    (pairwise_openings moment location)
    (fun _ hv => (mem_entryList.1 (List.mem_filter.1 hv).1).1)
  unpreceded v hv := by
    by_contra hne
    exact predecessors_ne_nil_append hmoment h hne
      (hclean.unpreceded v (mem_openings_append hmoment h hv))

end

/-- **Clean decisions close together**, exactly when their number of outcomes is
reached.  Nothing but runs happened.  Where all that follows a vertex are the arms
of one decision, reached in no other way, they are closed if they are as many as
each of them needs, and otherwise none is.  The same holds of the decisions that
open runs at a location, if nothing comes before them.  And it held at every earlier
moment, of the arms that were there by then. -/
theorem clean_decisions_close_together {settings : Settings} {events : List Event}
    {atlas : Atlas} (h : (empty settings).replay events = .ok atlas)
    (hruns : ∀ event ∈ events, ∃ trace, event = .run trace) :
    (∀ p n, CleanFork atlas p n → ClosesTogether atlas (atlas.successors p) n ∧
      ∀ earlier later moment, events = earlier ++ later →
        (empty settings).replay earlier = .ok moment →
          ClosesTogether moment (moment.successors p) n) ∧
    (∀ location n, CleanStart atlas location n →
      ClosesTogether atlas (atlas.openings location) n ∧
      ∀ earlier later moment, events = earlier ++ later →
        (empty settings).replay earlier = .ok moment →
          ClosesTogether moment (moment.openings location) n) := by
  constructor
  · intro p n hclean
    refine ⟨hclean.closesTogether h hruns, ?_⟩
    rintro earlier later moment rfl hmoment
    exact (hclean.before hmoment h).closesTogether hmoment
      fun event hevent => hruns event (List.mem_append_left _ hevent)
  · intro location n hclean
    refine ⟨hclean.closesTogether h hruns, ?_⟩
    rintro earlier later moment rfl hmoment
    exact (hclean.before hmoment h).closesTogether hmoment
      fun event hevent => hruns event (List.mem_append_left _ hevent)

/-- Both ways out of a conditional jump behind the input, and three runs that open
with different keys of a switch. -/
def forkAndStart : List Event :=
  bothWays ++ [.run [Tour.selection 1], .run [Tour.selection 2], .run [Tour.selection 3]]

/-- The jump has both of its outcomes, and both are closed; the switch lacks its
default, and no key is closed. -/
theorem clean_decisions_close_together_default :
    ∃ atlas, (empty {}).replay forkAndStart = .ok atlas ∧
      CleanFork atlas 0 2 ∧ CleanStart atlas ⟨3⟩ 4 ∧
      (∀ v ∈ atlas.successors 0, atlas.isClosed v = true) ∧
      ∀ v ∈ atlas.openings ⟨3⟩, atlas.isClosed v = false := by
  have hvalue : ((empty {}).replay forkAndStart).map (fun atlas =>
      (atlas.successors 0, atlas.openings ⟨3⟩, atlas.entryList,
        [1, 2, 3, 4, 5].map atlas.predecessors, [1, 2, 3, 4, 5].map atlas.clause?)) =
        .ok ([1, 2], [3, 4, 5], [0, 3, 4, 5], [[0], [0], [], [], []],
          [some (Tour.comparison true), some (Tour.comparison false),
            some (Tour.selection 1), some (Tour.selection 2), some (Tour.selection 3)]) := by
    rfl
  obtain ⟨atlas, h, hvalue⟩ := exists_of_map_eq_ok hvalue
  simp only [Prod.mk.injEq, List.map_cons, List.map_nil, List.cons.injEq, and_true] at hvalue
  obtain ⟨hfollow, hopen, hentries, ⟨hp1, hp2, hp3, hp4, hp5⟩, hc1, hc2, hc3, hc4, hc5⟩ :=
    hvalue
  have hruns : ∀ event ∈ forkAndStart, ∃ trace, event = .run trace := by
    simp [forkAndStart, bothWays]
  have hfork : CleanFork atlas 0 2 := by
    refine { decide := ?_, few := ?_, sole := ?_, unopened := ?_ }
    · rw [hfollow]
      simpa [hc1, hc2] using ⟨⟨rfl, rfl⟩, rfl, rfl⟩
    · rw [hfollow]
      decide
    · rw [hfollow]
      simp [hp1, hp2]
    · rw [hfollow, hentries]
      decide
  have hstart : CleanStart atlas ⟨3⟩ 4 := by
    refine { decide := ?_, few := ?_, unpreceded := ?_ }
    · rw [hopen]
      simpa [hc3, hc4, hc5] using ⟨⟨rfl, rfl⟩, ⟨rfl, rfl⟩, rfl, rfl⟩
    · rw [hopen]
      decide
    · rw [hopen]
      simp [hp3, hp4, hp5]
  obtain ⟨hforks, hstarts⟩ := clean_decisions_close_together h hruns
  refine ⟨atlas, h, hfork, hstart, ?_, ?_⟩
  · intro v hv
    exact ((hforks 0 2 hfork).1 v hv).2 (by rw [hfollow]; rfl)
  · intro v hv
    rw [Bool.eq_false_iff]
    intro hclosed
    have hlength := ((hstarts ⟨3⟩ 4 hstart).1 v hv).1 hclosed
    rw [hopen] at hlength
    cases hlength

end Atlas

end Concolic
