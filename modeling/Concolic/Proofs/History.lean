import Concolic.Proofs.Judging
import Mathlib.Data.List.Induction

/-!
# An atlas and its history

An atlas that was reached by a history holds what the runs of the history
observed, and nothing else: its clauses, the pairs of clauses that some run
observed one directly after the other, and the clauses at which some run began.
A history is taken apart at its end.  Its last event adds what it observed, and
what was there before keeps its place.

## Main results

* `Atlas.replay_induction`: what an event keeps holds of every history.
* `Atlas.clauses_replay`: the vertices are the distinct observed clauses, in
  order of first observation.
* `Atlas.mem_edges_iff`, `Atlas.mem_entries_iff`: the edges and the entries of
  an atlas, said of its history.
-/

namespace Concolic

/-! ## What a history observed -/

/-- The trace of a run. -/
def Event.trace? : Event → Option Trace
  | .run trace => some trace
  | .close _ => none

/-- The traces of the runs of a history, in their order. -/
def runs (events : List Event) : List Trace :=
  events.filterMap Event.trace?

/-- Some run observed the clause. -/
def Observes (events : List Event) (clause : Clause) : Prop :=
  ∃ trace ∈ runs events, clause ∈ trace

/-- Some run observed `second` directly after `first`. -/
def Follows (events : List Event) (first second : Clause) : Prop :=
  ∃ trace ∈ runs events, [first, second] <:+: trace

/-- Some run began with the clause. -/
def Opens (events : List Event) (clause : Clause) : Prop :=
  ∃ trace ∈ runs events, trace.head? = some clause

section

variable {events : List Event}

theorem runs_append (events more : List Event) :
    runs (events ++ more) = runs events ++ runs more :=
  List.filterMap_append

theorem runs_append_run (trace : Trace) :
    runs (events ++ [.run trace]) = runs events ++ [trace] :=
  runs_append events [.run trace]

theorem runs_append_close (clause : Clause) :
    runs (events ++ [.close clause]) = runs events := by
  rw [runs_append]
  exact List.append_nil _

theorem runs_map_run (traces : List Trace) : runs (traces.map .run) = traces := by
  rw [runs, List.filterMap_map]
  exact List.filterMap_some

/-- One more run: what some run did, an earlier one did or this one does. -/
private theorem exists_runs_append {P : Trace → Prop} (trace : Trace) :
    (∃ other ∈ runs (events ++ [.run trace]), P other) ↔
      (∃ other ∈ runs events, P other) ∨ P trace := by
  rw [runs_append_run]
  simp only [List.mem_append, List.mem_singleton, or_and_right, exists_or,
    exists_eq_left]

theorem follows_append_run (trace : Trace) {first second : Clause} :
    Follows (events ++ [.run trace]) first second ↔
      Follows events first second ∨ [first, second] <:+: trace :=
  exists_runs_append trace

theorem opens_append_run (trace : Trace) {clause : Clause} :
    Opens (events ++ [.run trace]) clause ↔
      Opens events clause ∨ trace.head? = some clause :=
  exists_runs_append trace

theorem follows_append_close (clause : Clause) {first second : Clause} :
    Follows (events ++ [.close clause]) first second ↔ Follows events first second := by
  rw [Follows, runs_append_close, Follows]

theorem opens_append_close (closed : Clause) {clause : Clause} :
    Opens (events ++ [.close closed]) clause ↔ Opens events clause := by
  rw [Opens, runs_append_close, Opens]

/-- What was observed stays observed. -/
theorem Follows.append {first second : Clause} (h : Follows events first second)
    (more : List Event) : Follows (events ++ more) first second := by
  rcases h with ⟨trace, htrace, hpair⟩
  refine ⟨trace, ?_, hpair⟩
  rw [runs_append]
  exact List.mem_append_left _ htrace

theorem Opens.append {clause : Clause} (h : Opens events clause) (more : List Event) :
    Opens (events ++ more) clause := by
  rcases h with ⟨trace, htrace, hhead⟩
  refine ⟨trace, ?_, hhead⟩
  rw [runs_append]
  exact List.mem_append_left _ htrace

theorem Follows.observes {first second : Clause} (h : Follows events first second) :
    Observes events first ∧ Observes events second := by
  rcases h with ⟨trace, htrace, hpair⟩
  exact ⟨⟨trace, htrace, hpair.subset (by simp)⟩,
    ⟨trace, htrace, hpair.subset (by simp)⟩⟩

theorem Opens.observes {clause : Clause} (h : Opens events clause) :
    Observes events clause := by
  rcases h with ⟨trace, htrace, hhead⟩
  exact ⟨trace, htrace, List.mem_of_head? hhead⟩

/-- An observed clause opened its run or followed another clause. -/
theorem Observes.opens_or_follows {clause : Clause} (h : Observes events clause) :
    Opens events clause ∨ ∃ before, Follows events before clause := by
  rcases h with ⟨trace, htrace, hmem⟩
  obtain ⟨front, rest, rfl⟩ := List.append_of_mem hmem
  rcases List.eq_nil_or_concat front with rfl | ⟨init, before, rfl⟩
  · exact Or.inl ⟨clause :: rest, htrace, rfl⟩
  · exact Or.inr ⟨before, _, htrace, init, rest, by simp⟩

end

/-! ## Neighbours in a list -/

/-- Zipping a list with its tail pairs each member with the next one. -/
theorem mem_zip_tail_iff {α : Type} {xs : List α} {a b : α} :
    (a, b) ∈ xs.zip xs.tail ↔ [a, b] <:+: xs := by
  induction xs with
  | nil => simp
  | cons x xs ih =>
      cases xs with
      | nil =>
          have hlong : ¬[a, b] <:+: [x] := fun h => absurd h.length_le (by simp)
          simpa using hlong
      | cons y ys =>
          rw [List.infix_cons_iff, ← ih]
          simp [List.cons_prefix_cons]

/-- The same after a map. -/
theorem mem_zip_tail_map_iff {α β : Type} {f : α → β} {xs : List α} {u v : β} :
    (u, v) ∈ (xs.map f).zip (xs.map f).tail ↔
      ∃ a b, [a, b] <:+: xs ∧ f a = u ∧ f b = v := by
  rw [← List.map_tail, List.zip_map, List.mem_map]
  constructor
  · intro hmem
    rcases hmem with ⟨⟨a, b⟩, hab, heq⟩
    obtain ⟨ha, hb⟩ := Prod.mk.inj heq
    exact ⟨a, b, mem_zip_tail_iff.1 hab, ha, hb⟩
  · intro hpair
    rcases hpair with ⟨a, b, hab, rfl, rfl⟩
    exact ⟨(a, b), mem_zip_tail_iff.2 hab, rfl⟩

/-- A member of a list with one more at the end is that one, or a member of the
list before. -/
theorem append_singleton_eq_append_cons_iff {α : Type} {xs front back : List α} {x y : α} :
    xs ++ [x] = front ++ y :: back ↔
      (front = xs ∧ y = x ∧ back = []) ∨
        ∃ between, back = between ++ [x] ∧ xs = front ++ y :: between := by
  constructor
  · intro h
    rcases List.eq_nil_or_concat back with rfl | ⟨between, last, rfl⟩
    · obtain ⟨hfront, hlast⟩ := List.append_inj' h rfl
      exact Or.inl ⟨hfront.symm, (List.singleton_inj.1 hlast).symm, rfl⟩
    · rw [List.concat_eq_append, ← List.cons_append, ← List.append_assoc] at h
      obtain ⟨hfront, hlast⟩ := List.append_inj' h rfl
      rw [List.concat_eq_append, List.singleton_inj.1 hlast]
      exact Or.inr ⟨between, rfl, hfront⟩
  · intro h
    rcases h with ⟨rfl, rfl, rfl⟩ | ⟨between, rfl, rfl⟩
    · rfl
    · simp

/-! ## Positions on a roster that grows -/

namespace Roster

variable {α : Type}

theorem get?_lt_size {roster : Roster α} {i : Nat} {x : α}
    (h : roster.get? i = some x) : i < roster.size :=
  (List.getElem?_eq_some_iff.1 h).1

variable [DecidableEq α]

theorem position_addAll {roster : Roster α} {x : α} (hx : x ∈ roster) (xs : List α) :
    (roster.addAll xs).position x = roster.position x := by
  obtain ⟨rest, hrest⟩ := prefix_addAll roster xs
  rw [position, position, ← hrest, List.idxOf_append, if_pos (mem_toList.2 hx)]

/-- A member keeps its place. -/
theorem get?_addAll_iff {roster : Roster α} {x : α} (hx : x ∈ roster) (xs : List α)
    (i : Nat) : (roster.addAll xs).get? i = some x ↔ roster.get? i = some x := by
  rw [get?_eq_some_iff, get?_eq_some_iff, position_addAll hx, mem_addAll]
  exact and_congr_left fun _ => ⟨fun _ => hx, Or.inl⟩

end Roster

/-! ## One event -/

namespace Atlas

theorem clause?_eq_some_iff {atlas : Atlas} {v : Nat} {clause : Clause} :
    atlas.clause? v = some clause ↔
      clause ∈ atlas.clauses ∧ atlas.clauses.position clause = v :=
  Roster.get?_eq_some_iff

theorem lt_size_of_clause? {atlas : Atlas} {v : Nat} {clause : Clause}
    (h : atlas.clause? v = some clause) : v < atlas.size :=
  Roster.get?_lt_size h

section

variable {atlas next : Atlas} {trace : Trace}

/-- All that a run does to an atlas. -/
structure Grows (atlas : Atlas) (trace : Trace) (next : Atlas) : Prop where
  clauses : next.clauses = atlas.clauses.addAll trace
  edges : next.edges =
    atlas.edges.addAll ((next.itinerary trace).zip (next.itinerary trace).tail)
  entries : next.entries = atlas.entries.addAll ((next.itinerary trace).take 1)
  records : next.records = atlas.records.recordAll trace.decisions.stages trace
  depth : next.depth = max atlas.depth trace.depth
  settings : next.settings = atlas.settings
  judged : ∀ v, next.Due trace v →
    v ∈ atlas.closed ∨ ∃ complete, next.isComplete v = .ok complete
  closed : ∀ v, v ∈ next.closed ↔
    v ∈ atlas.closed ∨ next.Due trace v ∧ next.isComplete v = .ok true

/-- Judging reads nothing that it changes, so the grown atlas may be judged once
its decisions are closed. -/
theorem grows_of_addRun (h : atlas.addRun trace = .ok next) :
    Grows atlas trace next := by
  have hjudges := judges_addRun atlas trace
  rw [h] at hjudges
  cases hjudges with
  | answered added tested closed =>
      exact
        { clauses := rfl
          edges := rfl
          entries := rfl
          records := rfl
          depth := rfl
          settings := rfl
          judged := tested
          closed := closed }

namespace Grows

variable (h : Grows atlas trace next)

include h

theorem mem_clauses {clause : Clause} :
    clause ∈ next.clauses ↔ clause ∈ atlas.clauses ∨ clause ∈ trace := by
  rw [h.clauses, Roster.mem_addAll]

/-- A clause keeps its vertex. -/
theorem clause?_iff {clause : Clause} (hclause : clause ∈ atlas.clauses) {v : Nat} :
    next.clause? v = some clause ↔ atlas.clause? v = some clause := by
  rw [clause?, clause?, h.clauses]
  exact Roster.get?_addAll_iff hclause trace v

theorem clause?_of_clause? {v : Nat} {clause : Clause}
    (hv : atlas.clause? v = some clause) : next.clause? v = some clause :=
  (h.clause?_iff (clause?_eq_some_iff.1 hv).1).2 hv

/-- The vertex of a clause of the run. -/
theorem position_iff {clause : Clause} (hclause : clause ∈ trace) {v : Nat} :
    next.clauses.position clause = v ↔ next.clause? v = some clause := by
  rw [clause?_eq_some_iff, h.mem_clauses]
  exact ⟨fun hv => ⟨Or.inr hclause, hv⟩, And.right⟩

/-- The new edges join what the run observed one directly after the other. -/
theorem mem_edges {u v : Nat} :
    (u, v) ∈ next.edges ↔ (u, v) ∈ atlas.edges ∨ ∃ first second,
      [first, second] <:+: trace ∧ next.clause? u = some first ∧
        next.clause? v = some second := by
  rw [h.edges, Roster.mem_addAll, itinerary, mem_zip_tail_map_iff]
  refine or_congr_right (exists_congr fun first => exists_congr fun second =>
    and_congr_right fun hpair => ?_)
  rw [h.position_iff (hpair.subset (by simp)), h.position_iff (hpair.subset (by simp))]

/-- The new entry is the start of the run. -/
theorem mem_entries {v : Nat} :
    v ∈ next.entries ↔ v ∈ atlas.entries ∨ ∃ clause,
      trace.head? = some clause ∧ next.clause? v = some clause := by
  rw [h.entries, Roster.mem_addAll, itinerary]
  refine or_congr_right ?_
  cases hhead : trace with
  | nil => simp
  | cons clause rest =>
      have hmem : clause ∈ trace := by
        rw [hhead]
        exact List.mem_cons_self
      rw [List.map_cons, List.take_succ_cons, List.take_zero, List.mem_singleton, eq_comm,
        h.position_iff hmem]
      simp

end Grows

/-- A decision is looked up first, and then closed. -/
theorem close_eq_bind (atlas : Atlas) (clause : Clause) :
    atlas.close clause = atlas.decisionVertex clause >>=
      fun v => .ok { atlas with closed := atlas.closed.add v } := rfl

/-- Closing a decision changes nothing else. -/
theorem close_eq_ok {clause : Clause} (h : atlas.close clause = .ok next) :
    ∃ v, atlas.decisionVertex clause = .ok v ∧
      next = { atlas with closed := atlas.closed.add v } := by
  rw [close_eq_bind] at h
  cases hv : atlas.decisionVertex clause with
  | error fault =>
      rw [hv] at h
      cases h
  | ok v =>
      rw [hv] at h
      cases h
      exact ⟨v, rfl, rfl⟩

end

/-! ## Induction over a history -/

section

variable {settings : Settings} {events : List Event} {atlas : Atlas}

theorem replay_append_eq_ok {event : Event} {next : Atlas} :
    (empty settings).replay (events ++ [event]) = .ok next ↔
      ∃ atlas, (empty settings).replay events = .ok atlas ∧ atlas.apply event = .ok next := by
  rw [replay, List.foldlM_append, ← replay]
  cases (empty settings).replay events with
  | error fault => simp [bind, Except.bind]
  | ok atlas =>
      cases hevent : atlas.apply event <;>
        simp [bind, Except.bind, pure, Except.pure, hevent]

/-- What holds of the empty atlas, and is kept by every run and by every
closing, holds of every atlas together with its history. -/
theorem replay_induction {P : List Event → Atlas → Prop} (hempty : P [] (empty settings))
    (hrun : ∀ events atlas trace next, (empty settings).replay events = .ok atlas →
      P events atlas → (empty settings).replay (events ++ [.run trace]) = .ok next →
        Grows atlas trace next → P (events ++ [.run trace]) next)
    (hclose : ∀ events atlas clause v, (empty settings).replay events = .ok atlas →
      P events atlas → atlas.decisionVertex clause = .ok v →
        (empty settings).replay (events ++ [.close clause]) =
            .ok { atlas with closed := atlas.closed.add v } →
          P (events ++ [.close clause]) { atlas with closed := atlas.closed.add v })
    (h : (empty settings).replay events = .ok atlas) : P events atlas := by
  induction events using List.reverseRecOn generalizing atlas with
  | nil =>
      cases h
      exact hempty
  | append_singleton events event ih =>
      obtain ⟨before, hbefore, hevent⟩ := replay_append_eq_ok.1 h
      cases event with
      | run trace => exact hrun _ _ _ _ hbefore (ih hbefore) h (grows_of_addRun hevent)
      | close clause =>
          obtain ⟨v, hv, rfl⟩ := close_eq_ok hevent
          exact hclose _ _ _ _ hbefore (ih hbefore) hv h

/-- **Merging by value**: the vertices of an atlas are the distinct clauses
that were observed, in order of first observation. -/
theorem clauses_replay (h : (empty settings).replay events = .ok atlas) :
    atlas.clauses = Roster.ofList (runs events).flatten := by
  refine replay_induction (P := fun events atlas =>
    atlas.clauses = Roster.ofList (runs events).flatten) rfl ?_ ?_ h
  · intro events atlas trace next _ ih _ hgrows
    rw [hgrows.clauses, ih, runs_append_run, List.flatten_append, Roster.ofList,
      Roster.ofList, Roster.addAll_append, List.flatten_singleton]
  · intro events atlas clause v _ ih _ _
    rw [runs_append_close]
    exact ih

theorem mem_clauses_iff (h : (empty settings).replay events = .ok atlas)
    {clause : Clause} : clause ∈ atlas.clauses ↔ Observes events clause := by
  rw [clauses_replay h, Roster.mem_ofList, List.mem_flatten]
  exact Iff.rfl

/-- An observed clause has a vertex. -/
theorem clause?_position (h : (empty settings).replay events = .ok atlas) {clause : Clause}
    (hclause : Observes events clause) :
    atlas.clause? (atlas.clauses.position clause) = some clause :=
  clause?_eq_some_iff.2 ⟨(mem_clauses_iff h).2 hclause, rfl⟩

/-- **Edges**: some run observed the two clauses one directly after the other. -/
theorem mem_edges_iff (h : (empty settings).replay events = .ok atlas) {u v : Nat} :
    (u, v) ∈ atlas.edges ↔ ∃ first second, Follows events first second ∧
      atlas.clause? u = some first ∧ atlas.clause? v = some second := by
  refine replay_induction (P := fun events atlas => (u, v) ∈ atlas.edges ↔
    ∃ first second, Follows events first second ∧
      atlas.clause? u = some first ∧ atlas.clause? v = some second) ?_ ?_ ?_ h
  · refine ⟨fun hmem => absurd hmem (Roster.not_mem_empty _), ?_⟩
    intro hedge
    rcases hedge with ⟨first, second, ⟨trace, htrace, -⟩, -⟩
    exact absurd htrace List.not_mem_nil
  · intro events atlas trace next hatlas ih _ hgrows
    rw [hgrows.mem_edges, ih]
    constructor
    · intro hedge
      rcases hedge with ⟨first, second, hfollows, hu, hv⟩ | ⟨first, second, hpair, hu, hv⟩
      · exact ⟨first, second, (follows_append_run trace).2 (Or.inl hfollows),
          hgrows.clause?_of_clause? hu, hgrows.clause?_of_clause? hv⟩
      · exact ⟨first, second, (follows_append_run trace).2 (Or.inr hpair), hu, hv⟩
    · intro hedge
      rcases hedge with ⟨first, second, hfollows, hu, hv⟩
      rcases (follows_append_run trace).1 hfollows with hold | hpair
      · rcases hold.observes with ⟨hfirst, hsecond⟩
        exact Or.inl ⟨first, second, hold,
          (hgrows.clause?_iff ((mem_clauses_iff hatlas).2 hfirst)).1 hu,
          (hgrows.clause?_iff ((mem_clauses_iff hatlas).2 hsecond)).1 hv⟩
      · exact Or.inr ⟨first, second, hpair, hu, hv⟩
  · intro events atlas clause w _ ih _ _
    simp only [follows_append_close]
    exact ih

/-- **Entries**: some run began with the clause. -/
theorem mem_entries_iff (h : (empty settings).replay events = .ok atlas) {v : Nat} :
    v ∈ atlas.entries ↔ ∃ clause, Opens events clause ∧ atlas.clause? v = some clause := by
  refine replay_induction (P := fun events atlas => v ∈ atlas.entries ↔
    ∃ clause, Opens events clause ∧ atlas.clause? v = some clause) ?_ ?_ ?_ h
  · refine ⟨fun hmem => absurd hmem (Roster.not_mem_empty _), ?_⟩
    intro hentry
    rcases hentry with ⟨clause, ⟨trace, htrace, -⟩, -⟩
    exact absurd htrace List.not_mem_nil
  · intro events atlas trace next hatlas ih _ hgrows
    rw [hgrows.mem_entries, ih]
    constructor
    · intro hentry
      rcases hentry with ⟨clause, hopens, hv⟩ | ⟨clause, hhead, hv⟩
      · exact ⟨clause, (opens_append_run trace).2 (Or.inl hopens),
          hgrows.clause?_of_clause? hv⟩
      · exact ⟨clause, (opens_append_run trace).2 (Or.inr hhead), hv⟩
    · intro hentry
      rcases hentry with ⟨clause, hopens, hv⟩
      rcases (opens_append_run trace).1 hopens with hold | hhead
      · exact Or.inl ⟨clause, hold,
          (hgrows.clause?_iff ((mem_clauses_iff hatlas).2 hold.observes)).1 hv⟩
      · exact Or.inr ⟨clause, hhead, hv⟩
  · intro events atlas clause w _ ih _ _
    simp only [opens_append_close]
    exact ih

/-- The successors of a vertex, said of the history. -/
theorem mem_successors_iff (h : (empty settings).replay events = .ok atlas)
    {u v : Nat} : v ∈ atlas.successors u ↔ ∃ first second, Follows events first second ∧
      atlas.clause? u = some first ∧ atlas.clause? v = some second := by
  rw [mem_successors, mem_edges_iff h]
  refine and_iff_right_of_imp ?_
  intro hedge
  rcases hedge with ⟨first, second, -, -, hv⟩
  exact lt_size_of_clause? hv

/-- A predecessor is what has the vertex among its successors. -/
theorem mem_predecessors_iff (h : (empty settings).replay events = .ok atlas)
    {u v : Nat} : u ∈ atlas.predecessors v ↔ v ∈ atlas.successors u := by
  rw [mem_successors_iff h, mem_predecessors, mem_edges_iff h]
  refine and_iff_right_of_imp ?_
  intro hedge
  rcases hedge with ⟨first, second, -, hu, -⟩
  exact lt_size_of_clause? hu

end

end Atlas

end Concolic
