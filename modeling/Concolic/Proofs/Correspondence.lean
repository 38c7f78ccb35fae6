import Concolic.Proofs.Entering
import Mathlib

/-!
# A gazetteer keeps what an atlas keeps

The same events happen to a gazetteer and to an atlas.  Then both refuse the same one with
the same fault, or both take all of them, and the gazetteer shows the atlas in the end.  A
gazetteer can also fail where an atlas cannot, namely when a number leads to no page, when
a path is cut too long, and when there is no number left.  The first two never happen; the
third does not as long as the runs have no more distinct clauses than there are numbers.

The two judge the same decisions in the same order.  All that a judgement reads off the
pages are lists of vertices in ascending order, and those are the lists of the atlas.

## Main results

* `Agree.bind`, `Agree.foldlM`: requests in sequence that are answered or refused alike.
* `Gazetteer.Shows.outcomes_eq_ok`, `Gazetteer.Shows.isComplete_eq`: what a judgement reads.
* `Gazetteer.agree_addRun`, `Gazetteer.agree_replay`: a run, and a history.
* `Gazetteer.exists_replay_shown`: what a gazetteer has at the end of a history.
-/

namespace Concolic

/-- Both are refused for the same fault, or both are answered and their answers are
related. -/
inductive Agree {α β : Type} (R : α → β → Prop) : Except Fault α → Except Fault β → Prop where
  | answered (x : α) (y : β) (related : R x y) : Agree R (.ok x) (.ok y)
  | refused (fault : Fault) : Agree R (.error fault) (.error fault)

namespace Agree

variable {α β γ δ : Type} {R : α → β → Prop} {S : γ → δ → Prop}
variable {left : Except Fault α} {right : Except Fault β}

theorem bind (h : Agree R left right) {f : α → Except Fault γ} {g : β → Except Fault δ}
    (hnext : ∀ x y, right = .ok y → R x y → Agree S (f x) (g y)) :
    Agree S (left >>= f) (right >>= g) := by
  cases h with
  | answered x y related => exact hnext x y rfl related
  | refused fault => exact .refused fault

/-- In sequence, each step keeps the relation. -/
theorem foldlM {ι : Type} {f : α → ι → Except Fault α} {g : β → ι → Except Fault β}
    {items : List ι} (hstep : ∀ i ∈ items, ∀ x y, R x y → Agree R (f x i) (g y i))
    {x : α} {y : β} (hstart : R x y) : Agree R (items.foldlM f x) (items.foldlM g y) := by
  induction items generalizing x y with
  | nil => exact .answered x y hstart
  | cons i items ih =>
      rw [List.foldlM_cons, List.foldlM_cons]
      exact (hstep i List.mem_cons_self x y hstart).bind fun x' y' _ h =>
        ih (fun j hj => hstep j (List.mem_cons_of_mem i hj)) h

theorem exists_left (h : Agree R left right) {y : β} (hright : right = .ok y) :
    ∃ x, left = .ok x ∧ R x y := by
  cases h with
  | answered x z related =>
      cases hright
      exact ⟨x, rfl, related⟩
  | refused fault => cases hright

theorem error_iff (h : Agree R left right) (fault : Fault) :
    left = .error fault ↔ right = .error fault := by
  cases h with
  | answered x y related => simp
  | refused other => simp

end Agree

theorem Page.Shows.isDecision {page : Page} {atlas : Atlas} {v : Nat} (h : page.Shows atlas v) :
    page.isDecision = atlas.isDecision v := by
  have hbook := congrArg Option.isSome h.book
  rw [Option.isSome_map] at hbook
  rw [Page.isDecision, hbook, Atlas.isDecision_of_clause? h.clause]
  cases page.clause.isDecision <;> rfl

namespace Gazetteer

section

variable {depth : Nat} {gazetteer : Gazetteer} {atlas : Atlas} {v : Nat}

/-! ## Lists of vertices -/

theorem listed_eq {vertices : Finset Nat} {members : List Nat}
    (hpairwise : members.Pairwise (· < ·)) (h : ∀ v, v ∈ vertices ↔ v ∈ members) :
    listed vertices = members := by
  refine eq_of_pairwise_lt vertices.sortedLT_sort.pairwise hpairwise fun v => ?_
  rw [listed, Finset.mem_sort, h]

theorem Shows.listed_entries (h : Shows depth gazetteer atlas) :
    listed gazetteer.entries = atlas.entryList := by
  refine listed_eq (pairwise_ascending _ _) fun v => ?_
  rw [h.entries, Atlas.mem_entryList]
  exact (and_iff_right_of_imp (h.entries_lt v)).symm

theorem Shows.listed_successors (h : Shows depth gazetteer atlas) {page : Page}
    (hpage : page.Shows atlas v) : listed page.successors = atlas.successors v := by
  refine listed_eq (pairwise_ascending _ _) fun w => ?_
  rw [hpage.successors, Atlas.mem_successors]
  exact (and_iff_right_of_imp fun hedge => (h.edges_lt v w hedge).2).symm

theorem Shows.listed_predecessors (h : Shows depth gazetteer atlas) {page : Page}
    (hpage : page.Shows atlas v) : listed page.predecessors = atlas.predecessors v := by
  refine listed_eq (pairwise_ascending _ _) fun u => ?_
  rw [hpage.predecessors, Atlas.mem_predecessors]
  exact (and_iff_right_of_imp fun hedge => (h.edges_lt u v hedge).1).symm

/-! ## Outcomes -/

theorem Shows.outcomes_eq_ok (h : Shows depth gazetteer atlas) (hv : v < atlas.size) :
    gazetteer.outcomes v = .ok (atlas.outcomeIds v) := by
  obtain ⟨own, hown, -, hpage⟩ := h.exists_page hv
  have hbefore := h.listed_predecessors hpage
  rw [outcomes, hown, ok_bind]
  by_cases hnone : own.predecessors = ∅
  · have hnil : atlas.predecessors v = [] := by
      rw [← hbefore, hnone]
      exact Finset.sort_empty _
    have htests : ∀ e ∈ listed gazetteer.entries, (do
        let opening ← gazetteer.page e
        return opening.isDecision && opening.clause.location == own.clause.location) =
          (.ok (atlas.isDecision e && (atlas.clause? e).map Clause.location ==
            (atlas.clause? v).map Clause.location) : Except Fault Bool) := by
      intro e he
      rw [h.listed_entries] at he
      obtain ⟨opening, hopening, -, hshows⟩ := h.exists_page (Atlas.mem_entryList.1 he).1
      rw [hopening, ok_bind, hshows.isDecision, hshows.clause, hpage.clause]
      rfl
    rw [if_pos hnone, filterM_eq_ok_filter htests, h.listed_entries, Atlas.outcomeIds, hnil]
  · have hsome : atlas.predecessors v ≠ [] := by
      obtain ⟨u, hu⟩ := Finset.nonempty_iff_ne_empty.2 hnone
      rw [← hbefore]
      exact List.ne_nil_of_mem ((Finset.mem_sort _).2 hu)
    have hparts : (listed own.predecessors).mapM (fun p => do
        return listed (← gazetteer.page p).successors) =
          (.ok ((listed own.predecessors).map atlas.successors) :
            Except Fault (List (List Nat))) := by
      refine mapM_eq_ok_map fun p hp => ?_
      rw [hbefore] at hp
      obtain ⟨before, hpresent, -, hshows⟩ := h.exists_page (Atlas.mem_predecessors.1 hp).1
      rw [hpresent, ok_bind, h.listed_successors hshows]
      rfl
    rw [if_neg hnone, hparts, ok_bind, hbefore]
    refine congrArg Except.ok (listed_eq (Atlas.pairwise_outcomeIds atlas v) fun s => ?_)
    rw [Atlas.mem_outcomeIds_of_ne_nil hsome, List.mem_toFinset, ← List.flatMap_def,
      List.mem_flatMap]

theorem Shows.isComplete_eq (h : Shows depth gazetteer atlas)
    (hdecision : atlas.isDecision v = true) :
    gazetteer.isComplete v = atlas.isComplete v := by
  obtain ⟨clause, hclause, hkind⟩ := Atlas.exists_clause?_of_isDecision hdecision
  have hv := Atlas.lt_size_of_clause? hclause
  obtain ⟨own, hown, -, hpage⟩ := h.exists_page hv
  have hsame : own.clause = clause := Option.some.inj (hpage.clause.symm.trans hclause)
  rw [isComplete, hown, ok_bind, hpage.isDecision, if_pos hdecision, hsame,
    h.outcomes_eq_ok hv, Atlas.isComplete, hclause]
  rfl

/-! ## Judging -/

theorem Shows.close (h : Shows depth gazetteer atlas) (v : Nat) :
    Shows depth { gazetteer with closed := insert v gazetteer.closed }
      { atlas with closed := atlas.closed.add v } :=
  { h with
    pages := fun w page hpage => (h.pages w page hpage).congr rfl rfl rfl
    closed := fun w => by
      show w ∈ insert v gazetteer.closed ↔ w ∈ atlas.closed.add v
      rw [Finset.mem_insert, Roster.mem_add, h.closed, or_comm] }

/-- A gazetteer shows an atlas that differs from `grown` in its closed decisions alone. -/
def ShowsJudging (depth : Nat) (grown : Atlas) (gazetteer : Gazetteer) (atlas : Atlas) : Prop :=
  Shows depth gazetteer atlas ∧ ∃ closed, atlas = { grown with closed := closed }

section

variable {grown : Atlas}

theorem agree_judge (h : ShowsJudging depth grown gazetteer atlas)
    (hdecision : grown.isDecision v = true) :
    Agree (ShowsJudging depth grown) (gazetteer.judge v) (atlas.judge v) := by
  obtain ⟨hshows, closed, rfl⟩ := h
  rw [judge, Atlas.judge, hshows.isComplete_eq hdecision]
  cases Atlas.isComplete { grown with closed := closed } v with
  | error fault => exact .refused fault
  | ok complete =>
      cases complete with
      | false => exact .answered _ _ ⟨hshows, closed, rfl⟩
      | true => exact .answered _ _ ⟨hshows.close v, closed.add v, rfl⟩

theorem agree_judgeAround (h : ShowsJudging depth grown gazetteer atlas)
    (hv : v < grown.size) :
    Agree (ShowsJudging depth grown) (gazetteer.judgeAround v) (atlas.judgeAround v) := by
  obtain ⟨hshows, closed, rfl⟩ := h
  have hcandidates : ∀ u ∈ v :: (grown.outcomeIds v).filter (· != v), (do
      return (← gazetteer.page u).isDecision && !decide (u ∈ gazetteer.closed)) =
        (.ok (grown.isDecision u &&
          !Atlas.isClosed { grown with closed := closed } u) : Except Fault Bool) := by
    intro u hu
    have husize : u < grown.size := by
      rcases List.mem_cons.1 hu with rfl | hu
      · exact hv
      · exact Atlas.lt_size_of_mem_outcomeIds (List.mem_filter.1 hu).1
    obtain ⟨page, hpage, -, hpageShows⟩ := hshows.exists_page husize
    have hclosed : decide (u ∈ gazetteer.closed) =
        Atlas.isClosed { grown with closed := closed } u := decide_eq_decide.2 (hshows.closed u)
    rw [hpage, ok_bind, hpageShows.isDecision, hclosed]
    rfl
  have hsiblings : gazetteer.outcomes v = .ok (grown.outcomeIds v) := hshows.outcomes_eq_ok hv
  rw [judgeAround, hsiblings, ok_bind, filterM_eq_ok_filter hcandidates, ok_bind]
  refine Agree.foldlM (f := judge) (g := Atlas.judge) ?_ ⟨hshows, closed, rfl⟩
  intro u hu next judged hnext
  exact agree_judge hnext (Bool.and_eq_true_iff.1 (List.mem_filter.1 hu).2).1

theorem agree_review (h : ShowsJudging depth grown gazetteer atlas) {order : List Nat}
    (horder : ∀ v ∈ order, v < grown.size) :
    Agree (ShowsJudging depth grown) (order.foldlM judgeAround gazetteer)
      (atlas.review order) :=
  Agree.foldlM (f := judgeAround) (g := Atlas.judgeAround)
    (fun v hv _ _ hnext => agree_judgeAround hnext (horder v hv)) h

end

/-! ## Events -/

/-- A gazetteer shows an atlas, and says its depth. -/
def Mirrors (gazetteer : Gazetteer) (atlas : Atlas) : Prop :=
  Shows atlas.depth gazetteer atlas

theorem Shows.deepen (h : Shows depth gazetteer atlas) (deeper : Nat) :
    Shows deeper { gazetteer with depth := deeper } atlas :=
  { h with depth := rfl }

theorem visited_lt_size {trace : Trace} (hv : v ∈ (atlas.extend trace).visited trace) :
    v < (atlas.extend trace).size := by
  obtain ⟨clause, hclause, -, rfl⟩ := Atlas.mem_visited.1 hv
  have hmem : clause ∈ (atlas.extend trace).clauses := Roster.mem_addAll.2 (Or.inr hclause)
  exact Atlas.lt_size_of_clause? (Atlas.clause?_eq_some_iff.2 ⟨hmem, rfl⟩)

theorem extend_nil (atlas : Atlas) : atlas.extend [] = atlas := by
  have hdepth : max atlas.depth (Trace.depth []) = atlas.depth := Nat.max_eq_left (Nat.zero_le _)
  rw [Atlas.extend, hdepth]
  rfl

/-- **A run** is answered or refused alike, as long as there is a number for every
vertex. -/
theorem agree_addRun {trace : Trace} (h : Mirrors gazetteer atlas)
    (hroom : (atlas.extend trace).size ≤ vertexLimit) :
    Agree Mirrors (gazetteer.addRun trace) (atlas.addRun trace) := by
  cases hempty : trace.isEmpty with
  | true =>
      rw [List.isEmpty_iff.1 hempty]
      have hrun : atlas.addRun [] = .ok (atlas.extend []) := rfl
      rw [hrun, extend_nil]
      exact .answered gazetteer atlas h
  | false =>
      obtain ⟨final, hfinal, hshows, hvisits⟩ := Shows.exists_entered h hroom
      have hreview := agree_review ⟨hshows, _, rfl⟩
        (fun v (hv : v ∈ (atlas.extend trace).visited trace) => visited_lt_size hv)
      rw [addRun, hempty, if_neg Bool.false_ne_true, hfinal, ok_bind, hvisits,
        ← bind_pure (atlas.addRun trace)]
      refine hreview.bind fun judged next _ hnext => ?_
      obtain ⟨hjudged, closed, rfl⟩ := hnext
      refine .answered _ _ ?_
      rw [hjudged.depth]
      exact hjudged.deepen _

theorem agree_close {clause : Clause} (h : Mirrors gazetteer atlas) :
    Agree Mirrors (gazetteer.close clause) (atlas.close clause) := by
  have hvertex : gazetteer.decisionVertex clause = atlas.decisionVertex clause := by
    rw [decisionVertex, vertex, h.index]
    rfl
  rw [close, hvertex, Atlas.close_eq_bind]
  cases atlas.decisionVertex clause with
  | error fault => exact .refused fault
  | ok v => exact .answered _ _ (Shows.close h v)

theorem card_le_of_append {events more : List Event} {limit : Nat}
    (h : (runs (events ++ more)).flatten.toFinset.card ≤ limit) :
    (runs events).flatten.toFinset.card ≤ limit := by
  refine (Finset.card_le_card ?_).trans h
  rw [runs_append, List.flatten_append, List.toFinset_append]
  exact Finset.subset_union_left

theorem size_extend {settings : Settings} {events : List Event} {trace : Trace}
    (h : (Atlas.empty settings).replay events = .ok atlas) :
    (atlas.extend trace).size =
      (runs (events ++ [.run trace])).flatten.toFinset.card := by
  rw [runs_append_run, ← Roster.size_ofList, List.flatten_append, Roster.ofList_append,
    ← Atlas.clauses_replay h, List.flatten_singleton]
  rfl

/-- **A history** is answered or refused alike, as long as there is a number for every
vertex. -/
theorem agree_replay (settings : Settings) (events : List Event)
    (hroom : (runs events).flatten.toFinset.card ≤ vertexLimit) :
    Agree Mirrors ((empty settings).replay events) ((Atlas.empty settings).replay events) := by
  induction events using List.reverseRecOn with
  | nil => exact .answered _ _ (shows_empty settings)
  | append_singleton events event ih =>
      rw [replay, Atlas.replay, List.foldlM_append, List.foldlM_append]
      refine (ih (card_le_of_append hroom)).bind fun gazetteer atlas hatlas h => ?_
      simp only [List.foldlM_cons, List.foldlM_nil, bind_pure]
      cases event with
      | run trace => exact agree_addRun h ((size_extend hatlas).trans_le hroom)
      | close clause => exact agree_close h

/-! ## All together -/

/-- **The logbook** of a decision has the records of the paths to it. -/
theorem records_of_book {page : Page} (h : page.Shows atlas v) {book : Logbook}
    (hbook : page.book = some book) : book.records = atlas.recordsAt v := by
  have hrecords := h.book
  rw [hbook] at hrecords
  rw [Atlas.recordsAt, h.clause]
  cases hkind : page.clause.isDecision with
  | true =>
      rw [hkind, if_pos rfl] at hrecords
      exact Option.some.inj hrecords
  | false =>
      rw [hkind] at hrecords
      cases hrecords

/-- **A history, kept by vertex.**  What happened to an atlas can happen to a gazetteer
without any lookup that fails, as long as there is a number for every vertex.  The
gazetteer has then for every vertex what the atlas has for it: its clause, its neighbours,
whether it is that of a decision, and the paths to it with their traces in the same
order.  It finds the same clauses, and has the same entries, closed decisions and
depth. -/
theorem exists_replay_shown {settings : Settings} {events : List Event}
    (h : (Atlas.empty settings).replay events = .ok atlas)
    (hroom : (runs events).flatten.toFinset.card ≤ vertexLimit) :
    ∃ gazetteer, (empty settings).replay events = .ok gazetteer ∧ Mirrors gazetteer atlas ∧
      gazetteer.pages.size = atlas.size ∧
      (∀ v page, gazetteer.page v = .ok page →
        atlas.clause? v = some page.clause ∧ page.isDecision = atlas.isDecision v ∧
        listed page.successors = atlas.successors v ∧
        listed page.predecessors = atlas.predecessors v ∧
        ∀ book, page.book = some book → book.entries = (atlas.recordsAt v).entries) ∧
      (∀ clause, gazetteer.vertex clause = atlas.vertex clause) ∧
      gazetteer.origin? = atlas.origin? ∧ listed gazetteer.entries = atlas.entryList ∧
      (∀ v, v ∈ gazetteer.closed ↔ atlas.isClosed v = true) ∧
      gazetteer.depth = atlas.depth := by
  obtain ⟨gazetteer, hreplay, hmirrors⟩ := (agree_replay settings events hroom).exists_left h
  refine ⟨gazetteer, hreplay, hmirrors, hmirrors.size, ?_, ?_, hmirrors.origin,
    hmirrors.listed_entries, fun v => (hmirrors.closed v).trans Atlas.isClosed_iff.symm,
    hmirrors.depth⟩
  · intro v page hpage
    have hshows := hmirrors.pages v page (getElem?_of_page hpage)
    exact ⟨hshows.clause, hshows.isDecision, hmirrors.listed_successors hshows,
      hmirrors.listed_predecessors hshows,
      fun book hbook => congrArg Records.entries (records_of_book hshows hbook)⟩
  · intro clause
    rw [vertex, hmirrors.index]
    rfl

end

end Gazetteer

end Concolic
