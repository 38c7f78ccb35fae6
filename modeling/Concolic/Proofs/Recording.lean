import Concolic.Proofs.Merging

/-!
# What an atlas records

A run follows a path to each of its decisions, and the path is recorded at the
vertex of that decision.  What is recorded at a vertex can be read off the
traces: the paths to its clause, in the order in which the runs followed them
first, each with the last run that followed it.  A path ends with the clause of
its vertex, so it is recorded at one vertex only, and the paths that it extends
are recorded on the way.

## Main results

* `Atlas.getElem?_paths_recordsAt`: the recorded paths and their order.
* `Atlas.mem_entries_recordsAt`: the run that is kept with a path.
* `Atlas.recorded_iff_followed`: the records of all vertices, said of the
  traces.
-/

namespace Concolic

/-! ## What a history followed -/

/-- The paths that the runs followed to the decision of a clause, run by run,
the shorter ones of a run first. -/
def passages (events : List Event) (clause : Clause) : List Path :=
  (runs events).flatMap fun trace =>
    trace.decisions.inits.filter fun path => path.getLast? == some clause

/-- The last run whose decisions begin with `path`. -/
def LastToFollow (events : List Event) (path : Path) (trace : Trace) : Prop :=
  ∃ before after, runs events = before ++ trace :: after ∧ path <+: trace.decisions ∧
    ∀ other ∈ after, ¬path <+: other.decisions

/-- Some run followed the path. -/
def Followed (events : List Event) (path : Path) : Prop :=
  ∃ trace ∈ runs events, path <+: trace.decisions

section

variable {events : List Event}

theorem mem_passages {clause : Clause} {path : Path} :
    path ∈ passages events clause ↔ path.getLast? = some clause ∧ Followed events path := by
  simp only [passages, List.mem_flatMap, List.mem_filter, List.mem_inits, beq_iff_eq]
  constructor
  · intro h
    rcases h with ⟨trace, htrace, hpath, hlast⟩
    exact ⟨hlast, trace, htrace, hpath⟩
  · intro h
    rcases h with ⟨hlast, trace, htrace, hpath⟩
    exact ⟨trace, htrace, hpath, hlast⟩

/-- The path of a run that goes on was followed as well. -/
theorem Followed.of_prefix {path stage : Path} (h : Followed events path)
    (hstage : stage <+: path) : Followed events stage := by
  rcases h with ⟨trace, htrace, hpath⟩
  exact ⟨trace, htrace, hstage.trans hpath⟩

/-- A followed path consists of observed decisions. -/
theorem Followed.decision {path : Path} {clause : Clause} (h : Followed events path)
    (hclause : clause ∈ path) : clause.isDecision = true ∧ Observes events clause := by
  rcases h with ⟨trace, htrace, hpath⟩
  obtain ⟨hmem, hkind⟩ := List.mem_filter.1 (hpath.mem hclause)
  exact ⟨hkind, trace, htrace, hmem⟩

theorem LastToFollow.followed {path : Path} {trace : Trace}
    (h : LastToFollow events path trace) : trace ∈ runs events ∧ path <+: trace.decisions := by
  rcases h with ⟨before, after, hruns, hpath, -⟩
  rw [hruns]
  exact ⟨List.mem_append_right before List.mem_cons_self, hpath⟩

/-- A new run is the last to follow its own paths; for all others nothing
changes. -/
theorem lastToFollow_append_run {path : Path} {trace other : Trace} :
    LastToFollow (events ++ [.run trace]) path other ↔
      path <+: trace.decisions ∧ other = trace ∨
        LastToFollow events path other ∧ ¬path <+: trace.decisions := by
  unfold LastToFollow
  rw [runs_append_run]
  constructor
  · intro h
    rcases h with ⟨before, after, hruns, hpath, hlater⟩
    rcases append_singleton_eq_append_cons_iff.1 hruns with
      ⟨-, rfl, rfl⟩ | ⟨between, rfl, hbefore⟩
    · exact Or.inl ⟨hpath, rfl⟩
    · refine Or.inr ⟨⟨before, between, hbefore, hpath, ?_⟩, hlater trace (by simp)⟩
      exact fun run hrun => hlater run (List.mem_append_left _ hrun)
  · intro h
    rcases h with ⟨hpath, rfl⟩ | ⟨⟨before, after, hruns, hpath, hlater⟩, hnew⟩
    · exact ⟨runs events, [], rfl, hpath, by simp⟩
    · refine ⟨before, after ++ [trace], by simp [hruns], hpath, ?_⟩
      intro run hrun
      rcases List.mem_append.1 hrun with hold | hlast
      · exact hlater run hold
      · exact List.mem_singleton.1 hlast ▸ hnew

end

/-- The paths of a run are its initial parts, without the empty one. -/
theorem Path.inits_eq_cons_stages (path : Path) : path.inits = [] :: Path.stages path := by
  refine List.ext_getElem (by simp [stages]) ?_
  intro i hleft hright
  rw [List.getElem_inits]
  cases i with
  | zero => rfl
  | succ i => simp [stages]

namespace Atlas

section

variable {settings : Settings} {events : List Event} {atlas : Atlas}

/-! ## All records -/

/-- All runs together leave their paths in order of arrival. -/
theorem roster_records_replay (h : (empty settings).replay events = .ok atlas) :
    atlas.records.roster =
      Roster.ofList ((runs events).flatMap fun trace => Path.stages trace.decisions) := by
  refine replay_induction (P := fun events atlas => atlas.records.roster =
    Roster.ofList ((runs events).flatMap fun trace => Path.stages trace.decisions))
      rfl ?_ ?_ h
  · intro events atlas trace next _ ih _ hgrows
    rw [hgrows.records, Records.roster_recordAll, ih, runs_append_run, List.flatMap_append,
      Roster.ofList_append, List.flatMap_singleton]
  · intro events atlas clause v _ ih _ _
    rw [runs_append_close]
    exact ih

/-- Each recorded path has the last run that followed it. -/
theorem mem_entries_replay (h : (empty settings).replay events = .ok atlas) {path : Path}
    {trace : Trace} :
    (path, trace) ∈ atlas.records.entries ↔ path ≠ [] ∧ LastToFollow events path trace := by
  refine replay_induction (P := fun events atlas => (path, trace) ∈ atlas.records.entries ↔
    path ≠ [] ∧ LastToFollow events path trace) ?_ ?_ ?_ h
  · constructor
    · intro hmem
      exact absurd hmem List.not_mem_nil
    · intro hlast
      exact absurd hlast.2.followed.1 List.not_mem_nil
  · intro events atlas last next _ ih _ hgrows
    rw [hgrows.records, Records.mem_entries_recordAll, ih, lastToFollow_append_run,
      Path.mem_stages]
    tauto
  · intro events atlas clause v _ ih _ _
    simp only [LastToFollow, runs_append_close]
    exact ih

/-! ## The records of a vertex -/

theorem recordsAt_of_clause? {v : Nat} {clause : Clause}
    (hv : atlas.clause? v = some clause) :
    atlas.recordsAt v = atlas.records.endingWith clause := by
  rw [recordsAt, hv]

theorem paths_recordsAt (h : (empty settings).replay events = .ok atlas) {v : Nat}
    {clause : Clause} (hv : atlas.clause? v = some clause) :
    (atlas.recordsAt v).paths = (Roster.ofList (passages events clause)).toList := by
  have hpassages : passages events clause = ((runs events).flatMap fun trace =>
      Path.stages trace.decisions).filter fun path => path.getLast? == some clause := by
    rw [passages, List.filter_flatMap]
    refine List.flatMap_congr fun trace _ => ?_
    rw [Path.inits_eq_cons_stages]
    rfl
  rw [recordsAt_of_clause? hv, Records.paths_endingWith, hpassages,
    ← Roster.filter_toList_ofList, ← roster_records_replay h]
  rfl

/-- **Recorded paths**: they stand in the order in which they were first
followed. -/
theorem getElem?_paths_recordsAt (h : (empty settings).replay events = .ok atlas) {v : Nat}
    {clause : Clause} (hv : atlas.clause? v = some clause) {i : Nat} {path : Path} :
    (atlas.recordsAt v).paths[i]? = some path ↔ Newcomer (passages events clause) i path := by
  rw [paths_recordsAt h hv]
  exact Roster.get?_ofList_iff

theorem mem_paths_recordsAt (h : (empty settings).replay events = .ok atlas) {v : Nat}
    {path : Path} :
    path ∈ (atlas.recordsAt v).paths ↔ ∃ clause, atlas.clause? v = some clause ∧
      path.getLast? = some clause ∧ Followed events path := by
  cases hv : atlas.clause? v with
  | none =>
      rw [recordsAt, hv]
      constructor
      · intro hmem
        exact absurd hmem List.not_mem_nil
      · intro hclause
        rcases hclause with ⟨_, hclause, -⟩
        cases hclause
  | some clause =>
      rw [paths_recordsAt h hv, Roster.mem_toList, Roster.mem_ofList, mem_passages]
      simp

/-- **Recorded runs**: with a path goes the last run that followed it. -/
theorem mem_entries_recordsAt (h : (empty settings).replay events = .ok atlas) {v : Nat}
    {clause : Clause} (hv : atlas.clause? v = some clause) {path : Path} {trace : Trace} :
    (path, trace) ∈ (atlas.recordsAt v).entries ↔
      path.getLast? = some clause ∧ LastToFollow events path trace := by
  rw [recordsAt_of_clause? hv, Records.endingWith, List.mem_filter, mem_entries_replay h,
    beq_iff_eq, and_comm]
  refine and_congr_right fun hlast => and_iff_right ?_
  rintro rfl
  cases hlast

/-- Where a path was recorded, its last clause has its vertex. -/
theorem mem_paths_of_followed (h : (empty settings).replay events = .ok atlas) {path : Path}
    (hpath : Followed events path) (hne : path ≠ []) :
    ∃ v last, path.getLast? = some last ∧ atlas.find? last = some v ∧
      path ∈ (atlas.recordsAt v).paths := by
  have hlast : path.getLast? = some (path.getLast hne) := List.getLast?_eq_some_getLast hne
  have hobserved : Observes events (path.getLast hne) :=
    (hpath.decision (List.getLast_mem hne)).2
  have hv := clause?_position h hobserved
  exact ⟨_, _, hlast, find?_eq_some_iff.2 hv,
    (mem_paths_recordsAt h).2 ⟨_, hv, hlast, hpath⟩⟩

/-- Nothing is recorded at an effect. -/
theorem entries_recordsAt_of_effect (h : (empty settings).replay events = .ok atlas)
    {v : Nat} (heffect : atlas.isDecision v = false) : (atlas.recordsAt v).entries = [] := by
  refine List.eq_nil_iff_forall_not_mem.2 ?_
  intro entry hentry
  have hpath : entry.1 ∈ (atlas.recordsAt v).paths := List.mem_map_of_mem hentry
  obtain ⟨clause, hv, hlast, hfollowed⟩ := (mem_paths_recordsAt h).1 hpath
  have hkind := (hfollowed.decision (List.mem_of_getLast? hlast)).1
  rw [isDecision_of_clause? hv, hkind] at heffect
  cases heffect

/-- The depth is the length of the longest recorded path. -/
theorem isGreatest_length_paths (h : (empty settings).replay events = .ok atlas) :
    IsGreatest (insert 0 {count | ∃ v, ∃ path ∈ (atlas.recordsAt v).paths,
      path.length = count}) atlas.depth := by
  obtain ⟨hreached, hbound⟩ := isGreatest_depth h
  have hcount : ∀ trace : Trace, trace.countP Clause.isDecision = trace.decisions.length :=
    fun trace => List.countP_eq_length_filter
  constructor
  · rcases hreached with hzero | ⟨trace, htrace, hdepth⟩
    · exact Or.inl hzero
    · rw [hcount] at hdepth
      by_cases hnil : trace.decisions = []
      · rw [hnil, List.length_nil] at hdepth
        exact Or.inl hdepth.symm
      · obtain ⟨v, last, -, -, hpath⟩ :=
          mem_paths_of_followed h ⟨trace, htrace, List.prefix_refl _⟩ hnil
        exact Or.inr ⟨v, trace.decisions, hpath, hdepth⟩
  · intro count hmem
    rcases hmem with rfl | ⟨v, path, hpath, rfl⟩
    · exact Nat.zero_le _
    · obtain ⟨clause, -, -, trace, htrace, hprefix⟩ := (mem_paths_recordsAt h).1 hpath
      calc path.length ≤ trace.decisions.length := hprefix.length_le
        _ = trace.countP Clause.isDecision := (hcount trace).symm
        _ ≤ atlas.depth := hbound (Or.inr ⟨trace, htrace, rfl⟩)

/-- **Path records, said of the traces.**  A vertex holds the non-empty paths
that runs followed to its clause, each once and in the order in which they were
first followed, and with each the last run that followed it; an effect holds
none.  So a path is recorded at one vertex only, the paths that it extends are
recorded at the vertices of their own last clauses, and the depth is the length
of the longest recorded path. -/
theorem recorded_iff_followed (h : (empty settings).replay events = .ok atlas) :
    (∀ v clause, atlas.clause? v = some clause →
      (∀ path, path ∈ (atlas.recordsAt v).paths ↔
        path ≠ [] ∧ path.getLast? = some clause ∧
          ∃ trace ∈ runs events, path <+: trace.decisions) ∧
      (atlas.recordsAt v).paths.Nodup ∧
      (∀ i path, (atlas.recordsAt v).paths[i]? = some path ↔
        Newcomer (passages events clause) i path) ∧
      (∀ path trace, (path, trace) ∈ (atlas.recordsAt v).entries ↔
        path.getLast? = some clause ∧ LastToFollow events path trace)) ∧
    (∀ v, atlas.isDecision v = false → (atlas.recordsAt v).entries = []) ∧
    (∀ u v path, path ∈ (atlas.recordsAt u).paths → path ∈ (atlas.recordsAt v).paths →
      u = v) ∧
    (∀ v path stage, path ∈ (atlas.recordsAt v).paths → stage ≠ [] → stage <+: path →
      ∃ u last, stage.getLast? = some last ∧ atlas.find? last = some u ∧
        stage ∈ (atlas.recordsAt u).paths) ∧
    IsGreatest (insert 0 {count | ∃ v, ∃ path ∈ (atlas.recordsAt v).paths,
      path.length = count}) atlas.depth := by
  refine ⟨?_, fun _ => entries_recordsAt_of_effect h, ?_, ?_, isGreatest_length_paths h⟩
  · intro v clause hv
    refine ⟨?_, (atlas.recordsAt v).nodup, fun _ _ => getElem?_paths_recordsAt h hv,
      fun _ _ => mem_entries_recordsAt h hv⟩
    intro path
    rw [paths_recordsAt h hv, Roster.mem_toList, Roster.mem_ofList, mem_passages]
    refine (and_iff_right_of_imp ?_).symm
    rintro ⟨hlast, -⟩ rfl
    cases hlast
  · intro u v path hu hv
    obtain ⟨clause, hclause, hlast, -⟩ := (mem_paths_recordsAt h).1 hu
    obtain ⟨other, hother, hlast', -⟩ := (mem_paths_recordsAt h).1 hv
    have heq : clause = other := Option.some.inj (hlast.symm.trans hlast')
    exact eq_of_clause? hclause (heq ▸ hother)
  · intro v path stage hpath hne hstage
    obtain ⟨-, -, -, hfollowed⟩ := (mem_paths_recordsAt h).1 hpath
    exact mem_paths_of_followed h (hfollowed.of_prefix hstage) hne

end

/-- Whether a loop goes on. -/
def turn (stays : Bool) : Clause :=
  .jump 1 (.equal (.var "n > 0") (.bool stays))

/-- A run through a loop. -/
def loopRun (turns : Nat) : Trace :=
  (List.replicate turns [turn true, .effect 2 "n = n - 1"]).flatten ++ [turn false]

/-- A run that goes twice through the loop, and a shorter one. -/
def loopingRuns : List Event :=
  [.run (loopRun 2), .run (loopRun 1)]

/-- The first path to the head of the loop is that of both runs and has the
later one; the second path was followed by the longer run alone. -/
theorem recorded_iff_followed_looping :
    ∃ atlas, (empty {}).replay loopingRuns = .ok atlas ∧
      ([turn true], loopRun 1) ∈ (atlas.recordsAt 0).entries ∧
      ([turn true, turn true], loopRun 2) ∈ (atlas.recordsAt 0).entries ∧
      (atlas.recordsAt 0).paths[1]? = some [turn true, turn true] := by
  have hvalue : ((empty {}).replay loopingRuns).map (fun atlas => atlas.clause? 0) =
      .ok (some (turn true)) := by
    rfl
  obtain ⟨atlas, h, hclause⟩ := exists_of_map_eq_ok hvalue
  obtain ⟨-, -, hpaths, hentries⟩ := (recorded_iff_followed h).1 0 (turn true) hclause
  refine ⟨atlas, h, ?_, ?_, ?_⟩
  · exact (hentries _ _).2 ⟨rfl, [loopRun 2], [], rfl, by decide, by simp⟩
  · exact (hentries _ _).2 ⟨rfl, [], [loopRun 1], rfl, by decide, by decide⟩
  · exact (hpaths 1 _).2 ⟨[[turn true]], [[turn true]], by decide, by decide, by decide⟩

end Atlas

end Concolic
