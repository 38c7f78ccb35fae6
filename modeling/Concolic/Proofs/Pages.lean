import Concolic.Gazetteer
import Concolic.Proofs.Bookkeeping
import Concolic.Proofs.Merging
import Mathlib

/-!
# What the pages of a gazetteer show

A gazetteer shows an atlas if each page has of its vertex what the atlas has: the clause,
the neighbours on both sides, and in the logbook of a decision the records of the paths to
it.  The atlas keeps all its records in one list, and those of a vertex are the ones that
end with its clause; a path therefore changes one logbook and leaves the others alone.

A run changes a gazetteer by small steps.  Each of them looks up the pages that it
changes.  Since what an atlas refers to is on its map, the pages are there, and after the
step the gazetteer shows the atlas with one vertex, edge, entry or path more.

## Main results

* `Records.endingWith_record`, `Records.endingWith_record_of_ne`: a new path and the
  records of one decision.
* `Gazetteer.Shows.enter`, `Gazetteer.Shows.join`, `Gazetteer.Shows.record`: the steps.
-/

namespace Concolic

/-! ## The records of one decision -/

namespace Records

variable {records : Records} {path : Path} {trace : Trace} {clause : Clause}

theorem fst_rebind (entry : Path × Trace) : (rebind path trace entry).1 = entry.1 := by
  unfold rebind
  split
  · next h => exact h.symm
  · rfl

theorem filter_rebind (entries : List (Path × Trace)) :
    (entries.map (rebind path trace)).filter (fun entry => entry.1.getLast? == some clause) =
      (entries.filter fun entry => entry.1.getLast? == some clause).map
        (rebind path trace) := by
  rw [List.filter_map]
  refine congrArg (List.map _) (List.filter_congr fun entry _ => ?_)
  rw [Function.comp_apply, fst_rebind]

/-- A path is recorded among those that end with its last clause. -/
theorem endingWith_record (h : path.getLast? = some clause) :
    (records.record path trace).2.endingWith clause =
      ((records.endingWith clause).record path trace).2 := by
  have hlast : (path.getLast? == some clause) = true := beq_iff_eq.2 h
  have hpaths : path ∈ (records.endingWith clause).paths ↔ path ∈ records.paths := by
    rw [paths_endingWith, List.mem_filter, and_iff_left hlast]
  by_cases hpath : path ∈ records.paths
  · rw [record, dif_pos hpath, record, dif_pos (hpaths.2 hpath)]
    exact eq_of_entries (filter_rebind records.entries)
  · rw [record, dif_neg hpath, record, dif_neg (mt hpaths.1 hpath)]
    refine eq_of_entries ?_
    show (records.entries ++ [(path, trace)]).filter
      (fun entry => entry.1.getLast? == some clause) =
        (records.endingWith clause).entries ++ [(path, trace)]
    simp [endingWith, h]

/-- The paths that end otherwise are left alone. -/
theorem endingWith_record_of_ne (h : path.getLast? ≠ some clause) :
    (records.record path trace).2.endingWith clause = records.endingWith clause := by
  have hlast : ¬(path.getLast? == some clause) = true := mt beq_iff_eq.1 h
  by_cases hpath : path ∈ records.paths
  · rw [record, dif_pos hpath]
    refine eq_of_entries ((filter_rebind records.entries).trans ?_)
    refine (List.map_congr_left fun entry hentry => ?_).trans (List.map_id _)
    have hother : entry.1 ≠ path := by
      rintro rfl
      exact hlast (List.mem_filter.1 hentry).2
    exact if_neg hother
  · rw [record, dif_neg hpath]
    refine eq_of_entries ?_
    show (records.entries ++ [(path, trace)]).filter
      (fun entry => entry.1.getLast? == some clause) = (records.endingWith clause).entries
    simp [endingWith, h]

end Records

/-! ## Steps of an atlas -/

namespace Atlas

/-- The atlas with a vertex for a clause. -/
def entered (atlas : Atlas) (clause : Clause) : Atlas :=
  { atlas with clauses := atlas.clauses.add clause }

theorem clause?_entered (atlas : Atlas) (clause : Clause) :
    (atlas.entered clause).clause? ((atlas.clauses.add clause).position clause) = some clause :=
  clause?_eq_some_iff.2 ⟨Roster.mem_add.2 (Or.inr rfl), rfl⟩

/-- The atlas with one edge more, or with one entry more. -/
def joined (atlas : Atlas) (previous? : Option Nat) (v : Nat) : Atlas :=
  { atlas with
    edges := atlas.edges.addAll (previous?.map fun u => (u, v)).toList
    entries := atlas.entries.addAll (if previous?.isSome then [] else [v]) }

/-- The atlas with one path more. -/
def recorded (atlas : Atlas) (path : Path) (trace : Trace) : Atlas :=
  { atlas with records := (atlas.records.record path trace).2 }

end Atlas

/-- What is cut from a path at the end of an initial part shows that part. -/
theorem Excerpt.exists_cut (stage rest : Path) :
    ∃ excerpt, cut (stage ++ rest) stage.length = .ok excerpt ∧ excerpt.clauses = stage := by
  refine exists_of_map_eq_ok ?_
  rw [map_clauses_cut, Path.cut, if_pos (by simp), List.take_left]

/-! ## What a gazetteer shows -/

/-- The page of a vertex shows what an atlas has of it. -/
structure Page.Shows (page : Page) (atlas : Atlas) (v : Nat) : Prop where
  clause : atlas.clause? v = some page.clause
  successors : ∀ w, w ∈ page.successors ↔ (v, w) ∈ atlas.edges
  predecessors : ∀ u, u ∈ page.predecessors ↔ (u, v) ∈ atlas.edges
  book : page.book.map Logbook.records =
    if page.clause.isDecision then some (atlas.records.endingWith page.clause) else none

namespace Page.Shows

variable {atlas : Atlas}

/-- What a page shows are clauses, edges and records. -/
theorem congr {page : Page} {v : Nat} (h : page.Shows atlas v) {other : Atlas}
    (hclauses : other.clauses = atlas.clauses) (hedges : other.edges = atlas.edges)
    (hrecords : other.records = atlas.records) : page.Shows other v where
  clause := by
    rw [Atlas.clause?, hclauses]
    exact h.clause
  successors w := by rw [h.successors, hedges]
  predecessors u := by rw [h.predecessors, hedges]
  book := by rw [h.book, hrecords]

/-- A clause that comes later has a page of its own. -/
theorem entered {page : Page} {v : Nat} (h : page.Shows atlas v) {clause : Clause} :
    page.Shows (atlas.entered clause) v where
  clause :=
    (Roster.get?_addAll_iff (Atlas.clause?_eq_some_iff.1 h.clause).1 [clause] v).2 h.clause
  successors := h.successors
  predecessors := h.predecessors
  book := h.book

/-- Of an edge more, each of its ends takes note on its page. -/
theorem link {page next : Page} {w : Nat} (h : page.Shows atlas w) {u v : Nat}
    (hnext : next =
      { page with
        successors := if w = u then insert v page.successors else page.successors
        predecessors := if w = v then insert u page.predecessors else page.predecessors }) :
    next.Shows { atlas with edges := atlas.edges.add (u, v) } w := by
  subst hnext
  refine
    { clause := h.clause
      successors := fun x => ?_
      predecessors := fun x => ?_
      book := h.book }
  · show x ∈ (if w = u then insert v page.successors else page.successors) ↔ _
    rw [Roster.mem_add, Prod.mk.injEq, ← h.successors]
    split
    · next heq => rw [Finset.mem_insert, or_comm, and_iff_right heq]
    · next hne => rw [or_iff_left fun heq => hne heq.1]
  · show x ∈ (if w = v then insert u page.predecessors else page.predecessors) ↔ _
    rw [Roster.mem_add, Prod.mk.injEq, ← h.predecessors]
    split
    · next heq => rw [Finset.mem_insert, or_comm, and_iff_left heq]
    · next hne => rw [or_iff_left fun heq => hne heq.2]

/-- A path takes its place in the logbook of the decision that it ends with. -/
theorem record {page next : Page} {w : Nat} (h : page.Shows atlas w) {v : Nat}
    {clause : Clause} (hv : atlas.clause? v = some clause) (hkind : clause.isDecision = true)
    {path : Excerpt} (hlast : path.clauses.getLast? = some clause) {trace : Trace}
    (hnext : next = if w = v then
      { page with book := page.book.map fun book => (book.record path trace).2 } else page) :
    next.Shows (atlas.recorded path.clauses trace) w := by
  have hbook := h.book
  by_cases heq : w = v
  · subst heq
    have hclause : page.clause = clause := Option.some.inj (h.clause.symm.trans hv)
    rw [if_pos rfl] at hnext
    subst hnext
    refine
      { clause := h.clause
        successors := h.successors
        predecessors := h.predecessors
        book := ?_ }
    rw [hclause, if_pos hkind] at hbook
    obtain ⟨book, hsome, hrecords⟩ := Option.map_eq_some_iff.1 hbook
    show (page.book.map fun book => (book.record path trace).2).map Logbook.records =
      if page.clause.isDecision then
        some ((atlas.records.record path.clauses trace).2.endingWith page.clause) else none
    rw [hclause, if_pos hkind, hsome, Records.endingWith_record hlast, ← hrecords]
    exact congrArg some (book.record_records path trace).2
  · rw [hnext, if_neg heq]
    refine
      { clause := h.clause
        successors := h.successors
        predecessors := h.predecessors
        book := hbook.trans ?_ }
    have hother : path.clauses.getLast? ≠ some page.clause := by
      rw [hlast]
      intro hsame
      exact heq (Atlas.eq_of_clause? (h.clause.trans hsame.symm) hv)
    rw [Atlas.recorded, Records.endingWith_record_of_ne hother]

end Page.Shows

namespace Gazetteer

/-- A gazetteer shows what an atlas has, except that it says `depth`: the depth of a run
is taken over when its decisions are judged.  What the atlas refers to is on its map. -/
structure Shows (depth : Nat) (gazetteer : Gazetteer) (atlas : Atlas) : Prop where
  settings : gazetteer.settings = atlas.settings
  size : gazetteer.pages.size = atlas.size
  pages : ∀ v (page : Page), gazetteer.pages[v]? = some page → page.Shows atlas v
  index : ∀ clause, gazetteer.index[clause]? = atlas.find? clause
  origin : gazetteer.origin? = atlas.origin?
  entries : ∀ v, v ∈ gazetteer.entries ↔ v ∈ atlas.entries
  closed : ∀ v, v ∈ gazetteer.closed ↔ v ∈ atlas.closed
  depth : gazetteer.depth = depth
  edges_lt : ∀ u v, (u, v) ∈ atlas.edges → u < atlas.size ∧ v < atlas.size
  entries_lt : ∀ v ∈ atlas.entries, v < atlas.size
  last_mem : ∀ path ∈ atlas.records.paths, ∀ clause,
    path.getLast? = some clause → clause ∈ atlas.clauses

section

variable {depth : Nat} {gazetteer : Gazetteer} {atlas : Atlas}

theorem shows_empty (settings : Settings) :
    Shows 0 (empty settings) (Atlas.empty settings) where
  settings := rfl
  size := rfl
  pages v page h := by cases h
  index clause := Std.HashMap.getElem?_empty
  origin := rfl
  entries v := by simp [empty, Atlas.empty]
  closed v := by simp [empty, Atlas.empty]
  depth := rfl
  edges_lt u v h := absurd h (Roster.not_mem_empty _)
  entries_lt v h := absurd h (Roster.not_mem_empty v)
  last_mem path h := absurd h List.not_mem_nil

/-- A vertex on the map has its page. -/
theorem Shows.exists_page (h : Shows depth gazetteer atlas) {v : Nat} (hv : v < atlas.size) :
    ∃ page, gazetteer.page v = .ok page ∧ gazetteer.pages[v]? = some page ∧
      page.Shows atlas v := by
  have hsize : v < gazetteer.pages.size := h.size ▸ hv
  have hpage := Array.getElem?_eq_getElem hsize
  refine ⟨gazetteer.pages[v], ?_, hpage, h.pages v _ hpage⟩
  rw [page, hpage]

theorem getElem?_of_page {v : Nat} {own : Page} (hv : gazetteer.page v = .ok own) :
    gazetteer.pages[v]? = some own := by
  unfold page at hv
  split at hv
  · next found hfound =>
    cases hv
    exact hfound
  · cases hv

/-- To change a page changes that page alone. -/
theorem exists_update {v : Nat} {own : Page} (hv : gazetteer.page v = .ok own)
    (change : Page → Page) :
    ∃ pages, gazetteer.update v change = .ok { gazetteer with pages := pages } ∧
      pages.size = gazetteer.pages.size ∧ ∀ w, pages[w]? =
        gazetteer.pages[w]?.map fun page => if w = v then change page else page := by
  have hown := getElem?_of_page hv
  refine ⟨gazetteer.pages.setIfInBounds v (change own), ?_, Array.size_setIfInBounds, ?_⟩
  · rw [update, hv]
    rfl
  · intro w
    rw [Array.getElem?_setIfInBounds]
    by_cases hw : v = w
    · subst hw
      obtain ⟨hsize, rfl⟩ := Array.getElem?_eq_some_iff.1 hown
      simp [hsize]
    · simp [hw, Ne.symm hw]

/-! ## Entering a clause -/

/-- A newcomer takes no place from the others. -/
theorem get?_add_iff_of_ne {roster : Roster Clause} {clause other : Clause}
    (h : other ≠ clause) {v : Nat} :
    (roster.add clause).get? v = some other ↔ roster.get? v = some other := by
  by_cases hother : other ∈ roster
  · exact Roster.get?_addAll_iff hother [clause] v
  · rw [Roster.get?_eq_some_iff, Roster.get?_eq_some_iff, Roster.mem_add, or_iff_left h]
    simp [hother]

section

variable {clause : Clause} (hnew : clause ∉ atlas.clauses)

include hnew

theorem size_entered : (atlas.entered clause).size = atlas.size + 1 := by
  rw [Atlas.size, Atlas.entered, Roster.size, Roster.toList_add_of_not_mem hnew,
    List.length_append]
  rfl

theorem clause?_size_entered : (atlas.entered clause).clause? atlas.size = some clause := by
  have hentered := atlas.clause?_entered clause
  rw [Roster.position_add_self hnew] at hentered
  exact hentered

/-- Nothing is known yet of a new vertex but its clause. -/
theorem Shows.ofClause (h : Shows depth gazetteer atlas) :
    (Page.ofClause clause).Shows (atlas.entered clause) atlas.size := by
  refine
    { clause := clause?_size_entered hnew
      successors := fun w => ?_
      predecessors := fun u => ?_
      book := ?_ }
  · have hnone : (atlas.size, w) ∉ atlas.edges :=
      fun hedge => absurd (h.edges_lt _ _ hedge).1 (Nat.lt_irrefl _)
    simpa [Page.ofClause, Atlas.entered] using hnone
  · have hnone : (u, atlas.size) ∉ atlas.edges :=
      fun hedge => absurd (h.edges_lt _ _ hedge).2 (Nat.lt_irrefl _)
    simpa [Page.ofClause, Atlas.entered] using hnone
  · have hnone : atlas.records.endingWith clause = ∅ := by
      refine Records.eq_of_entries (List.filter_eq_nil_iff.2 fun entry hentry hlast => ?_)
      exact hnew (h.last_mem entry.1 (List.mem_map_of_mem hentry) clause (beq_iff_eq.1 hlast))
    show (Page.ofClause clause).book.map Logbook.records =
      if clause.isDecision then some (atlas.records.endingWith clause) else none
    rw [hnone, Page.ofClause]
    cases clause.isDecision <;> rfl

/-- A new clause gets the next page. -/
theorem Shows.push (h : Shows depth gazetteer atlas) :
    Shows depth
      { gazetteer with
        pages := gazetteer.pages.push (.ofClause clause)
        index := gazetteer.index.insert clause gazetteer.pages.size
        origin? := gazetteer.origin? <|> some gazetteer.pages.size }
      (atlas.entered clause) := by
  have hsize := size_entered hnew
  refine
    { h with
      size := ?_
      pages := ?_
      index := ?_
      origin := ?_
      edges_lt := ?_
      entries_lt := ?_
      last_mem := fun path hpath other hother =>
        Roster.mem_add.2 (Or.inl (h.last_mem path hpath other hother)) }
  · rw [Array.size_push, h.size, hsize]
  · intro v page hpage
    rw [Array.getElem?_push] at hpage
    split at hpage
    · next hv =>
      cases hpage
      rw [hv, h.size]
      exact h.ofClause hnew
    · next hv => exact (h.pages v page hpage).entered
  · intro other
    rw [Std.HashMap.getElem?_insert, h.size]
    by_cases heq : clause = other
    · subst heq
      rw [if_pos (beq_self_eq_true clause)]
      exact (Atlas.find?_eq_some_iff.2 (clause?_size_entered hnew)).symm
    · rw [if_neg (mt eq_of_beq heq), h.index]
      refine Option.ext fun v => ?_
      rw [Atlas.find?_eq_some_iff, Atlas.find?_eq_some_iff]
      exact (get?_add_iff_of_ne (Ne.symm heq)).symm
  · rw [h.origin, h.size, Atlas.origin?, Atlas.origin?, hsize]
    by_cases hsome : 0 < atlas.size
    · rw [if_pos hsome, if_pos (Nat.succ_pos _)]
      rfl
    · rw [if_neg hsome, if_pos (Nat.succ_pos _), Nat.eq_zero_of_not_pos hsome]
      rfl
  · intro u v hedge
    obtain ⟨hu, hv⟩ := h.edges_lt u v hedge
    rw [hsize]
    exact ⟨Nat.lt_succ_of_lt hu, Nat.lt_succ_of_lt hv⟩
  · intro v hentry
    rw [hsize]
    exact Nat.lt_succ_of_lt (h.entries_lt v hentry)

end

/-- **A clause** finds its page, or gets the next one. -/
theorem Shows.enter (h : Shows depth gazetteer atlas) (clause : Clause)
    (hroom : (atlas.clauses.add clause).size ≤ vertexLimit) :
    ∃ next, gazetteer.enter clause =
        .ok (next, (atlas.clauses.add clause).position clause) ∧
      Shows depth next (atlas.entered clause) := by
  have hindex := h.index clause
  by_cases hclause : clause ∈ atlas.clauses
  · rw [Atlas.find?, Roster.position?, if_pos hclause] at hindex
    rw [Atlas.entered, Roster.add_of_mem hclause]
    refine ⟨gazetteer, ?_, h⟩
    rw [Gazetteer.enter, hindex]
  · rw [Atlas.find?, Roster.position?, if_neg hclause] at hindex
    have hfree : gazetteer.pages.size < vertexLimit := by
      have hsize : (atlas.clauses.add clause).size = atlas.size + 1 := size_entered hclause
      rw [hsize] at hroom
      rw [h.size]
      exact hroom
    refine ⟨_, ?_, h.push hclause⟩
    rw [Gazetteer.enter, hindex, Roster.position_add_self hclause]
    simp only [if_pos hfree]
    rw [h.size]
    rfl

/-! ## Joining a clause to the one before -/

/-- Pages that have the same clauses and logbooks as before show an atlas with one edge
more. -/
theorem Shows.link (h : Shows depth gazetteer atlas) {u v : Nat} (hu : u < atlas.size)
    (hv : v < atlas.size) :
    ∃ next, gazetteer.link u v = .ok next ∧
      Shows depth next { atlas with edges := atlas.edges.add (u, v) } := by
  obtain ⟨left, hleft, -, -⟩ := h.exists_page hu
  obtain ⟨halfway, hupdate, hsize, hpages⟩ := exists_update hleft
    fun page => { page with successors := insert v page.successors }
  -- the ends may be one vertex, so the second page is the one after the first change
  obtain ⟨right, hright⟩ : ∃ right, page { gazetteer with pages := halfway } v = .ok right := by
    have hbound : v < halfway.size := by rw [hsize, h.size]; exact hv
    exact ⟨halfway[v], by rw [page, Array.getElem?_eq_getElem hbound]⟩
  obtain ⟨pages, hupdate', hsize', hpages'⟩ := exists_update hright
    fun page => { page with predecessors := insert u page.predecessors }
  refine ⟨{ gazetteer with pages := pages }, ?_, ?_⟩
  · rw [Gazetteer.link, hupdate, ok_bind, hupdate']
  · refine
      { h with
        size := (hsize'.trans hsize).trans h.size
        pages := ?_
        edges_lt := ?_ }
    · intro w page hpage
      have hpage : pages[w]? = some page := hpage
      rw [hpages', hpages, Option.map_map] at hpage
      obtain ⟨old, hold, hpage⟩ := Option.map_eq_some_iff.1 hpage
      refine (h.pages w old hold).link (hpage.symm.trans ?_)
      rw [Function.comp_apply]
      split_ifs <;> rfl
    · intro a b hedge
      rcases Roster.mem_add.1 hedge with hold | hnew
      · exact h.edges_lt a b hold
      · cases hnew
        exact ⟨hu, hv⟩

/-- A start is one entry more. -/
theorem Shows.start (h : Shows depth gazetteer atlas) {v : Nat} (hv : v < atlas.size) :
    Shows depth (gazetteer.start v) { atlas with entries := atlas.entries.add v } :=
  { h with
    pages := fun w page hpage => (h.pages w page hpage).congr rfl rfl rfl
    entries := fun w => by
      show w ∈ insert v gazetteer.entries ↔ w ∈ atlas.entries.add v
      rw [Finset.mem_insert, Roster.mem_add, h.entries, or_comm]
    entries_lt := fun w hentry =>
      (Roster.mem_add.1 hentry).elim (h.entries_lt w) fun heq => heq ▸ hv }

/-- **An edge or an entry** is noted. -/
theorem Shows.join (h : Shows depth gazetteer atlas) {previous? : Option Nat} {v : Nat}
    (hprevious : ∀ u, previous? = some u → u < atlas.size) (hv : v < atlas.size) :
    ∃ next, gazetteer.join previous? v = .ok next ∧
      Shows depth next (atlas.joined previous? v) := by
  cases previous? with
  | none => exact ⟨gazetteer.start v, rfl, h.start hv⟩
  | some u => exact h.link (hprevious u rfl) hv

/-! ## Recording a path -/

/-- **A path** goes into the logbook of its last clause. -/
theorem Shows.record (h : Shows depth gazetteer atlas) {v : Nat} {clause : Clause}
    (hv : atlas.clause? v = some clause) (hkind : clause.isDecision = true) {trace : Trace}
    {path rest : Path} (htrace : path ++ [clause] ++ rest = trace.decisions) :
    ∃ next, gazetteer.record v trace (path.length + 1) = .ok next ∧
      Shows depth next (atlas.recorded (path ++ [clause]) trace) := by
  obtain ⟨excerpt, hcut, hexcerpt⟩ := Excerpt.exists_cut (path ++ [clause]) rest
  have hlast : excerpt.clauses.getLast? = some clause := by
    rw [hexcerpt]
    exact List.getLast?_concat
  obtain ⟨own, hown, -, -⟩ := h.exists_page (Atlas.lt_size_of_clause? hv)
  obtain ⟨pages, hupdate, hsize, hpages⟩ := exists_update hown fun page =>
    { page with book := page.book.map fun book => (book.record excerpt trace).2 }
  rw [← hexcerpt]
  refine ⟨{ gazetteer with pages := pages }, ?_, ?_⟩
  · rw [htrace, List.length_append, List.length_singleton] at hcut
    rw [Gazetteer.record, hcut, ok_bind, hupdate]
  refine
    { h with
      size := hsize.trans h.size
      pages := ?_
      last_mem := ?_ }
  · intro w page hpage
    have hpage : pages[w]? = some page := hpage
    rw [hpages] at hpage
    obtain ⟨old, hold, hpage⟩ := Option.map_eq_some_iff.1 hpage
    exact (h.pages w old hold).record hv hkind hlast hpage.symm
  · intro other hother last hend
    have hmem : other ∈ atlas.records.roster.add excerpt.clauses := by
      rw [← Records.roster_record]
      exact hother
    rcases Roster.mem_add.1 hmem with hold | rfl
    · exact h.last_mem other hold last hend
    · rw [hlast] at hend
      cases hend
      exact (Atlas.clause?_eq_some_iff.1 hv).1

end

end Gazetteer

end Concolic
