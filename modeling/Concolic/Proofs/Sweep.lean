import Concolic.FlowGraph.Ranking
import Concolic.Proofs.Walks
import Mathlib.Order.Bounds.Defs

/-!
# Ranks are least tolls

The sweep gives each vertex the least toll of a walk to it, although it looks
at every edge only once.  What makes this work is the order of the queue.  At
every moment there is a level such that all vertices that were left have ranks
up to the level, all that wait have ranks from the level on, and no rank
exceeds the level by more than the toll of its own vertex.  The last part says
that a second visit offers nothing better, so the first rank stands.  It also
says that the ranks in the queue span two consecutive values at most, and then
adding at the front what was free and at the back what was not keeps the queue
sorted.

## Main results

* `Sweep.Consistent.enterAll`: entering the successors of a vertex at the level
  keeps all this, changes no rank, and gives each of them one.
* `Sweep.settled_after`: it holds after every number of steps, and no vertex is
  left twice.
* `ranks_eq_some_iff`: the rank of a vertex is the least toll of a walk to it.
-/

namespace Concolic

namespace FlowGraph

/-! ## Tolls -/

/-- The toll of entering a vertex. -/
def toll (tolled : Nat → Bool) (v : Nat) : Nat :=
  if tolled v then 1 else 0

/-- The toll of a walk: the number of its tolled vertices. -/
def tolls (tolled : Nat → Bool) (walk : List Nat) : Nat :=
  walk.countP tolled

theorem tolls_cons (tolled : Nat → Bool) (v : Nat) (back : List Nat) :
    tolls tolled (v :: back) = tolls tolled back + toll tolled v :=
  List.countP_cons

theorem tolls_singleton (tolled : Nat → Bool) (v : Nat) :
    tolls tolled [v] = toll tolled v := by
  rw [tolls_cons, tolls, List.countP_nil, Nat.zero_add]

theorem toll_le_one (tolled : Nat → Bool) (v : Nat) : toll tolled v ≤ 1 := by
  unfold toll
  split <;> omega

/-- What entering a vertex adds to the total is its toll. -/
theorem total_eq (tolled : Nat → Bool) (before v : Nat) :
    (if tolled v then before + 1 else before) = before + toll tolled v := by
  unfold toll
  split <;> rfl

/-- Some walk leads from the root to `v` at a total toll of `cost`. -/
def Affords (graph : FlowGraph) (tolled : Nat → Bool) (v cost : Nat) : Prop :=
  ∃ back, graph.Walk graph.root (v :: back) ∧ tolls tolled (v :: back) = cost

theorem Affords.lt_size {graph : FlowGraph} {tolled : Nat → Bool} {v cost : Nat}
    (h : graph.Affords tolled v cost) : v < graph.size := by
  rcases h with ⟨back, hwalk, -⟩
  exact hwalk.lt_size

theorem Affords.root {graph : FlowGraph} (tolled : Nat → Bool)
    (h : graph.root < graph.size) :
    graph.Affords tolled graph.root (toll tolled graph.root) :=
  ⟨[], .stay h, tolls_singleton tolled graph.root⟩

theorem Affords.step {graph : FlowGraph} {tolled : Nat → Bool} {u v cost : Nat}
    (h : graph.Affords tolled u cost) (hv : v ∈ graph.successors u) :
    graph.Affords tolled v (cost + toll tolled v) := by
  rcases h with ⟨back, hwalk, rfl⟩
  exact ⟨u :: back, .step hwalk hv, tolls_cons tolled v (u :: back)⟩

namespace Sweep

section

variable {graph : FlowGraph} {tolled : Nat → Bool} {level : Nat} {left : List Nat}
variable {sweep : Sweep}

/-! ## The order of a sweep -/

/-- What holds at every moment of a sweep.  The vertices that were `left` are
those that have gone through the queue. -/
structure Consistent (graph : FlowGraph) (tolled : Nat → Bool) (level : Nat)
    (left : List Nat) (sweep : Sweep) : Prop where
  size : sweep.ranks.size = graph.size
  walked : ∀ v rank, sweep.rank? v = some rank → graph.Affords tolled v rank
  near : ∀ v rank, sweep.rank? v = some rank → rank ≤ level + toll tolled v
  ahead : ∀ v ∈ sweep.queue, ∃ rank, sweep.rank? v = some rank ∧ level ≤ rank
  behind : ∀ v ∈ left, ∃ rank, sweep.rank? v = some rank ∧ rank ≤ level
  sorted : sweep.queue.Pairwise fun u v => ∀ r s,
    sweep.rank? u = some r → sweep.rank? v = some s → r ≤ s
  nodup : (sweep.queue ++ left).Nodup
  queued : ∀ v rank, sweep.rank? v = some rank → v ∈ sweep.queue ∨ v ∈ left

theorem Consistent.not_mem_of_rank_none {v : Nat}
    (h : Consistent graph tolled level left sweep) (hnone : sweep.rank? v = none) :
    v ∉ sweep.queue ++ left := by
  intro hmem
  rcases List.mem_append.1 hmem with hqueue | hleft
  · obtain ⟨rank, hrank, -⟩ := h.ahead v hqueue
    rw [hnone] at hrank
    cases hrank
  · obtain ⟨rank, hrank, -⟩ := h.behind v hleft
    rw [hnone] at hrank
    cases hrank

/-- The vertices that wait or have left are not more than there are. -/
theorem Consistent.length_le (h : Consistent graph tolled level left sweep) :
    sweep.queue.length + left.length ≤ graph.size := by
  have hsubset : sweep.queue ++ left ⊆ List.range graph.size := by
    intro v hv
    rw [List.mem_range]
    rcases List.mem_append.1 hv with hqueue | hleft
    · obtain ⟨rank, hrank, -⟩ := h.ahead v hqueue
      exact (h.walked v rank hrank).lt_size
    · obtain ⟨rank, hrank, -⟩ := h.behind v hleft
      exact (h.walked v rank hrank).lt_size
  have hle := List.Nodup.length_le_of_subset h.nodup hsubset
  rwa [List.length_append, List.length_range] at hle

/-! ## Entering a vertex -/

theorem size_ranks_enter (tolled : Nat → Bool) (before : Nat) (sweep : Sweep) (v : Nat) :
    (enter tolled before sweep v).ranks.size = sweep.ranks.size := by
  rw [enter, apply_ite ranks, apply_ite Array.size, Array.size_setIfInBounds, ite_self]

/-- A vertex that has a rank is not entered again: the new total is no less. -/
theorem Consistent.enter_of_rank {v known : Nat}
    (h : Consistent graph tolled level left sweep)
    (hknown : sweep.rank? v = some known) : enter tolled level sweep v = sweep := by
  have hnear := h.near v known hknown
  have htotal := total_eq tolled level v
  have hno : improves (level + toll tolled v) (some known) = false := by
    simp only [improves, decide_eq_false_iff_not]
    omega
  simp only [enter, htotal, hknown, hno]
  rfl

theorem rank?_enter_of_none (tolled : Nat → Bool) (level : Nat) {v : Nat}
    (hv : v < sweep.ranks.size) (hnone : sweep.rank? v = none) (w : Nat) :
    (enter tolled level sweep v).rank? w =
      if w = v then some (level + toll tolled v) else sweep.rank? w := by
  have htotal := total_eq tolled level v
  simp only [enter, htotal, hnone, improves, if_true]
  exact join_getElem?_setIfInBounds sweep.ranks hv _ w

theorem queue_enter_of_none {v : Nat} (hnone : sweep.rank? v = none) :
    (enter tolled level sweep v).queue =
      if tolled v then sweep.queue ++ [v] else v :: sweep.queue := by
  simp only [enter, hnone, improves, if_true]

/-- A new vertex joins the queue, at whichever end. -/
theorem queue_enter_perm (tolled : Nat → Bool) (level : Nat) {v : Nat}
    (hnone : sweep.rank? v = none) :
    ((enter tolled level sweep v).queue).Perm (v :: sweep.queue) := by
  rw [queue_enter_of_none hnone]
  split
  · exact List.perm_append_singleton v sweep.queue
  · exact List.Perm.refl _

theorem Consistent.sorted_enter {v : Nat}
    (h : Consistent graph tolled level left sweep) (hv : v < sweep.ranks.size)
    (hnone : sweep.rank? v = none) :
    (enter tolled level sweep v).queue.Pairwise fun u w => ∀ r s,
      (enter tolled level sweep v).rank? u = some r →
        (enter tolled level sweep v).rank? w = some s → r ≤ s := by
  have hread := rank?_enter_of_none tolled level hv hnone
  have hne : ∀ u ∈ sweep.queue, u ≠ v := by
    intro u hu heq
    subst heq
    exact h.not_mem_of_rank_none hnone (List.mem_append_left _ hu)
  have hold : sweep.queue.Pairwise fun u w => ∀ r s,
      (enter tolled level sweep v).rank? u = some r →
        (enter tolled level sweep v).rank? w = some s → r ≤ s := by
    refine h.sorted.imp_of_mem ?_
    intro u w hu hw hle r s hr hs
    rw [hread, if_neg (hne u hu)] at hr
    rw [hread, if_neg (hne w hw)] at hs
    exact hle r s hr hs
  rw [queue_enter_of_none hnone]
  by_cases hcost : tolled v = true
  · rw [if_pos hcost]
    refine List.pairwise_append.2 ⟨hold, List.pairwise_singleton _ _, ?_⟩
    intro u hu w hw r s hr hs
    rw [List.mem_singleton.1 hw, hread, if_pos rfl] at hs
    rw [hread, if_neg (hne u hu)] at hr
    have hnear := h.near u r hr
    have hone := toll_le_one tolled u
    have hs' : level + toll tolled v = s := Option.some.inj hs
    rw [toll, if_pos hcost] at hs'
    omega
  · rw [if_neg hcost]
    refine List.pairwise_cons.2 ⟨?_, hold⟩
    intro w hw r s hr hs
    rw [hread, if_pos rfl] at hr
    rw [hread, if_neg (hne w hw)] at hs
    obtain ⟨t, ht, hlevel⟩ := h.ahead w hw
    have hst : s = t := Option.some.inj (hs.symm.trans ht)
    have hr' : level + toll tolled v = r := Option.some.inj hr
    rw [toll, if_neg hcost] at hr'
    omega

/-- A vertex that some walk affords may be entered. -/
theorem Consistent.enter {v : Nat} (h : Consistent graph tolled level left sweep)
    (hwalk : graph.Affords tolled v (level + toll tolled v)) :
    Consistent graph tolled level left (enter tolled level sweep v) := by
  cases hrank : sweep.rank? v with
  | some known => rwa [h.enter_of_rank hrank]
  | none =>
      have hv : v < sweep.ranks.size := h.size ▸ hwalk.lt_size
      have hread := rank?_enter_of_none tolled level hv hrank
      have hperm := queue_enter_perm tolled level hrank
      have hfresh := h.not_mem_of_rank_none hrank
      refine
        { size := ?_
          walked := ?_
          near := ?_
          ahead := ?_
          behind := ?_
          sorted := h.sorted_enter hv hrank
          nodup := ?_
          queued := ?_ }
      · simp only [Sweep.enter, hrank, improves, if_true, Array.size_setIfInBounds]
        exact h.size
      · intro w rank hw
        rw [hread] at hw
        by_cases hwv : w = v
        · rw [if_pos hwv] at hw
          cases hw
          exact hwv ▸ hwalk
        · rw [if_neg hwv] at hw
          exact h.walked w rank hw
      · intro w rank hw
        rw [hread] at hw
        by_cases hwv : w = v
        · rw [if_pos hwv] at hw
          cases hw
          exact hwv ▸ Nat.le_refl _
        · rw [if_neg hwv] at hw
          exact h.near w rank hw
      · intro w hw
        rw [hread]
        by_cases hwv : w = v
        · exact ⟨level + toll tolled v, if_pos hwv, Nat.le_add_right _ _⟩
        · rw [if_neg hwv]
          exact h.ahead w ((List.mem_cons.1 (hperm.mem_iff.1 hw)).resolve_left hwv)
      · intro w hw
        have hwv : w ≠ v := by
          intro heq
          subst heq
          exact hfresh (List.mem_append_right _ hw)
        rw [hread, if_neg hwv]
        exact h.behind w hw
      · rw [(hperm.append_right left).nodup_iff]
        exact List.nodup_cons.2 ⟨hfresh, h.nodup⟩
      · intro w rank hw
        rw [hread] at hw
        rw [hperm.mem_iff, List.mem_cons]
        by_cases hwv : w = v
        · exact Or.inl (Or.inl hwv)
        · rw [if_neg hwv] at hw
          rcases h.queued w rank hw with hqueue | hleft
          · exact Or.inl (Or.inr hqueue)
          · exact Or.inr hleft

/-- The first rank stands. -/
theorem Consistent.rank?_enter {v w rank : Nat}
    (h : Consistent graph tolled level left sweep)
    (hwalk : graph.Affords tolled v (level + toll tolled v))
    (hrank : sweep.rank? w = some rank) :
    (Sweep.enter tolled level sweep v).rank? w = some rank := by
  cases hv : sweep.rank? v with
  | some known => rwa [h.enter_of_rank hv]
  | none =>
      have hwv : w ≠ v := by
        intro heq
        subst heq
        rw [hv] at hrank
        cases hrank
      rw [rank?_enter_of_none tolled level (h.size ▸ hwalk.lt_size) hv, if_neg hwv]
      exact hrank

theorem Consistent.rank?_enter_self {v : Nat}
    (h : Consistent graph tolled level left sweep)
    (hwalk : graph.Affords tolled v (level + toll tolled v)) :
    ∃ rank, (Sweep.enter tolled level sweep v).rank? v = some rank := by
  cases hv : sweep.rank? v with
  | some known => exact ⟨known, h.rank?_enter hwalk hv⟩
  | none =>
      rw [rank?_enter_of_none tolled level (h.size ▸ hwalk.lt_size) hv, if_pos rfl]
      exact ⟨_, rfl⟩

/-- Entering a list of vertices, one after the other. -/
theorem Consistent.enterAll (vs : List Nat) :
    ∀ {sweep : Sweep}, Consistent graph tolled level left sweep →
      (∀ v ∈ vs, graph.Affords tolled v (level + toll tolled v)) →
        Consistent graph tolled level left (vs.foldl (Sweep.enter tolled level) sweep) ∧
        (∀ w rank, sweep.rank? w = some rank →
          (vs.foldl (Sweep.enter tolled level) sweep).rank? w = some rank) ∧
        ∀ v ∈ vs, ∃ rank,
          (vs.foldl (Sweep.enter tolled level) sweep).rank? v = some rank := by
  induction vs with
  | nil =>
      intro sweep h _
      exact ⟨h, fun _ _ hrank => hrank, fun v hv => absurd hv List.not_mem_nil⟩
  | cons v vs ih =>
      intro sweep h hwalk
      have hv := hwalk v (by simp)
      obtain ⟨hcons, hkeep, hgive⟩ := ih (h.enter hv)
        (fun w hw => hwalk w (List.mem_cons_of_mem _ hw))
      refine ⟨hcons, ?_, ?_⟩
      · intro w rank hrank
        exact hkeep w rank (h.rank?_enter hv hrank)
      · intro w hw
        rcases List.mem_cons.1 hw with rfl | hw
        · obtain ⟨rank, hrank⟩ := h.rank?_enter_self hv
          exact ⟨rank, hkeep w rank hrank⟩
        · exact hgive w hw

/-! ## Steps -/

/-- What holds between two steps: in addition, a vertex that was left has
handed its rank on. -/
structure Settled (graph : FlowGraph) (tolled : Nat → Bool) (level : Nat)
    (left : List Nat) (sweep : Sweep) : Prop
    extends Consistent graph tolled level left sweep where
  begun : graph.root < graph.size →
    sweep.rank? graph.root = some (toll tolled graph.root)
  passed : ∀ u ∈ left, ∀ rank, sweep.rank? u = some rank →
    ∀ v ∈ graph.successors u, ∃ next,
      sweep.rank? v = some next ∧ next ≤ rank + toll tolled v

theorem rank?_blank (size v : Nat) :
    rank? ⟨[], Array.replicate size none⟩ v = none :=
  join_getElem?_replicate_none size v

theorem consistent_blank (graph : FlowGraph) (tolled : Nat → Bool) :
    Consistent graph tolled 0 [] ⟨[], Array.replicate graph.size none⟩ := by
  refine
    { size := Array.size_replicate
      walked := ?_
      near := ?_
      ahead := fun v hv => absurd hv List.not_mem_nil
      behind := fun v hv => absurd hv List.not_mem_nil
      sorted := List.Pairwise.nil
      nodup := List.nodup_nil
      queued := ?_ }
  all_goals
    intro v rank hrank
    rw [rank?_blank] at hrank
    cases hrank

theorem settled_start (graph : FlowGraph) (tolled : Nat → Bool) :
    Settled graph tolled 0 [] (start graph tolled) := by
  have hblank := consistent_blank graph tolled
  by_cases hroot : graph.root < graph.size
  · have hwalk : graph.Affords tolled graph.root (0 + toll tolled graph.root) := by
      rw [Nat.zero_add]
      exact Affords.root tolled hroot
    rw [start, if_pos hroot]
    refine
      { toConsistent := hblank.enter hwalk
        begun := ?_
        passed := fun u hu => absurd hu List.not_mem_nil }
    intro _
    have hsize : graph.root < (Array.replicate graph.size (none : Option Nat)).size := by
      rw [Array.size_replicate]
      exact hroot
    rw [rank?_enter_of_none tolled 0 hsize (rank?_blank graph.size graph.root), if_pos rfl,
      Nat.zero_add]
  · rw [start, if_neg hroot]
    exact
      { toConsistent := hblank
        begun := fun h => absurd h hroot
        passed := fun u hu => absurd hu List.not_mem_nil }

/-- Taking the first vertex off the queue raises the level to its rank. -/
theorem Consistent.pop {u rank : Nat} {rest : List Nat}
    (h : Consistent graph tolled level left sweep) (hqueue : sweep.queue = u :: rest)
    (hrank : sweep.rank? u = some rank) :
    Consistent graph tolled rank (u :: left) { sweep with queue := rest } := by
  have hmem : ∀ v ∈ rest, v ∈ sweep.queue := by
    intro v hv
    rw [hqueue]
    exact List.mem_cons_of_mem _ hv
  have hsorted := h.sorted
  rw [hqueue] at hsorted
  obtain ⟨hfirst, hrest⟩ := List.pairwise_cons.1 hsorted
  have hlevel : level ≤ rank := by
    obtain ⟨r, hr, hle⟩ := h.ahead u (by rw [hqueue]; simp)
    rw [hrank] at hr
    cases hr
    exact hle
  refine
    { size := h.size
      walked := h.walked
      near := ?_
      ahead := ?_
      behind := ?_
      sorted := hrest
      nodup := ?_
      queued := ?_ }
  · intro v r hr
    have hnear := h.near v r hr
    omega
  · intro v hv
    obtain ⟨r, hr, -⟩ := h.ahead v (hmem v hv)
    exact ⟨r, hr, hfirst v hv rank r hrank hr⟩
  · intro v hv
    rcases List.mem_cons.1 hv with rfl | hv
    · exact ⟨rank, hrank, Nat.le_refl _⟩
    · obtain ⟨r, hr, hle⟩ := h.behind v hv
      exact ⟨r, hr, Nat.le_trans hle hlevel⟩
  · have hnodup := h.nodup
    rw [hqueue, List.cons_append] at hnodup
    exact (List.perm_middle.nodup_iff).2 hnodup
  · intro v r hr
    rcases h.queued v r hr with hv | hv
    · rw [hqueue] at hv
      rcases List.mem_cons.1 hv with rfl | hv
      · exact Or.inr (by simp)
      · exact Or.inl hv
    · exact Or.inr (List.mem_cons_of_mem _ hv)

theorem step_of_queue {u rank : Nat} {rest : List Nat}
    (hqueue : sweep.queue = u :: rest) (hrank : sweep.rank? u = some rank) :
    step graph tolled sweep =
      (graph.successors u).foldl (Sweep.enter tolled rank) { sweep with queue := rest } := by
  simp only [step, hqueue, hrank]

theorem Settled.step {u : Nat} {rest : List Nat}
    (h : Settled graph tolled level left sweep) (hqueue : sweep.queue = u :: rest) :
    ∃ rank, Settled graph tolled rank (u :: left) (Sweep.step graph tolled sweep) := by
  obtain ⟨rank, hrank, -⟩ := h.ahead u (by rw [hqueue]; simp)
  have hpop := h.pop hqueue hrank
  have hwalk : ∀ v ∈ graph.successors u,
      graph.Affords tolled v (rank + toll tolled v) :=
    fun v hv => (h.walked u rank hrank).step hv
  obtain ⟨hcons, hkeep, hgive⟩ := hpop.enterAll (graph.successors u) hwalk
  rw [step_of_queue hqueue hrank]
  refine ⟨rank, { toConsistent := hcons, begun := ?_, passed := ?_ }⟩
  · intro hroot
    exact hkeep _ _ (h.begun hroot)
  · intro w hw r hr v hv
    rcases List.mem_cons.1 hw with rfl | hw
    · have hr' : r = rank := Option.some.inj (hr.symm.trans (hkeep w rank hrank))
      obtain ⟨next, hnext⟩ := hgive v hv
      exact ⟨next, hnext, hr' ▸ hcons.near v next hnext⟩
    · -- `w` was left before, so its rank is the old one
      obtain ⟨s, hs, -⟩ := h.behind w hw
      have hrs : r = s := Option.some.inj (hr.symm.trans (hkeep w s hs))
      obtain ⟨next, hnext, hle⟩ := h.passed w hw s hs v hv
      exact ⟨next, hkeep v next hnext, hrs ▸ hle⟩

/-- **The sweep stays in order**, and as long as vertices wait, each step
leaves one more. -/
theorem settled_after (graph : FlowGraph) (tolled : Nat → Bool) (count : Nat) :
    ∃ level left, Settled graph tolled level left (after graph tolled count) ∧
      ((after graph tolled count).queue = [] ∨ left.length = count) := by
  induction count with
  | zero => exact ⟨0, [], settled_start graph tolled, Or.inr rfl⟩
  | succ count ih =>
      rcases ih with ⟨level, left, h, hcount⟩
      show ∃ level left,
        Settled graph tolled level left (Sweep.step graph tolled (after graph tolled count)) ∧
          ((Sweep.step graph tolled (after graph tolled count)).queue = [] ∨
            left.length = count + 1)
      cases hqueue : (after graph tolled count).queue with
      | nil =>
          have hstay : Sweep.step graph tolled (after graph tolled count) =
              after graph tolled count := by
            simp only [Sweep.step, hqueue]
          rw [hstay]
          exact ⟨level, left, h, Or.inl hqueue⟩
      | cons u rest =>
          obtain ⟨rank, hnext⟩ := h.step hqueue
          have hlength : left.length = count := by
            rcases hcount with hnil | hlength
            · rw [hqueue] at hnil
              cases hnil
            · exact hlength
          exact ⟨rank, u :: left, hnext, Or.inr (by rw [List.length_cons, hlength])⟩

/-- As many steps as there are vertices empty the queue. -/
theorem exists_settled_done (graph : FlowGraph) (tolled : Nat → Bool) :
    ∃ level left, Settled graph tolled level left (after graph tolled graph.size) ∧
      (after graph tolled graph.size).queue = [] := by
  obtain ⟨level, left, h, hnil | hlength⟩ := settled_after graph tolled graph.size
  · exact ⟨level, left, h, hnil⟩
  · have hle := h.length_le
    refine ⟨level, left, h, List.eq_nil_of_length_eq_zero ?_⟩
    omega

/-- With nothing left to do, no walk is cheaper than the rank of its end. -/
theorem Settled.rank_le {level : Nat} {left : List Nat} {sweep : Sweep}
    (h : Settled graph tolled level left sweep) (hdone : sweep.queue = [])
    {walk : List Nat} (hwalk : graph.Walk graph.root walk) :
    ∀ v back, walk = v :: back →
      ∃ rank, sweep.rank? v = some rank ∧ rank ≤ tolls tolled walk := by
  induction hwalk with
  | stay hroot =>
      intro v back heq
      cases heq
      exact ⟨_, h.begun hroot, Nat.le_of_eq (tolls_singleton tolled graph.root).symm⟩
  | @step u w back hwalk hw ih =>
      intro v trail heq
      cases heq
      obtain ⟨rank, hrank, hle⟩ := ih u back rfl
      have hleft : u ∈ left := by
        rcases h.queued u rank hrank with hqueue | hleft
        · rw [hdone] at hqueue
          cases hqueue
        · exact hleft
      obtain ⟨next, hnext, hstep⟩ := h.passed u hleft rank hrank w hw
      refine ⟨next, hnext, ?_⟩
      rw [tolls_cons]
      omega

end

end Sweep

/-! ## The ranks -/

section

variable {graph : FlowGraph} {tolled : Nat → Bool} {v rank : Nat}

theorem affords_of_ranks (h : (graph.ranks tolled)[v]?.join = some rank) :
    graph.Affords tolled v rank := by
  obtain ⟨level, left, hsettled, -⟩ := Sweep.exists_settled_done graph tolled
  exact hsettled.walked v rank h

theorem exists_ranks_le {cost : Nat} (h : graph.Affords tolled v cost) :
    ∃ rank, (graph.ranks tolled)[v]?.join = some rank ∧ rank ≤ cost := by
  obtain ⟨level, left, hsettled, hdone⟩ := Sweep.exists_settled_done graph tolled
  rcases h with ⟨back, hwalk, rfl⟩
  exact hsettled.rank_le hdone hwalk v back rfl

/-- **The rank of a vertex is the least toll of a walk to it.** -/
theorem ranks_eq_some_iff :
    (graph.ranks tolled)[v]?.join = some rank ↔
      IsLeast {cost | graph.Affords tolled v cost} rank := by
  constructor
  · intro hrank
    refine ⟨affords_of_ranks hrank, ?_⟩
    intro cost hcost
    obtain ⟨r, hr, hle⟩ := exists_ranks_le hcost
    rw [hrank] at hr
    cases hr
    exact hle
  · intro hrank
    rcases hrank with ⟨hwalk, hleast⟩
    obtain ⟨r, hr, hle⟩ := exists_ranks_le hwalk
    have hge : rank ≤ r := hleast (affords_of_ranks hr)
    rw [hr, Nat.le_antisymm hle hge]

/-- Exactly the vertices within reach have a rank. -/
theorem exists_ranks_iff (tolled : Nat → Bool) :
    (∃ rank, (graph.ranks tolled)[v]?.join = some rank) ↔ graph.Reachable v := by
  constructor
  · intro hranked
    rcases hranked with ⟨rank, hrank⟩
    obtain ⟨back, hwalk, -⟩ := affords_of_ranks hrank
    exact ⟨back, hwalk⟩
  · intro hreach
    rcases hreach with ⟨back, hwalk⟩
    have haffords : graph.Affords tolled v (tolls tolled (v :: back)) := ⟨back, hwalk, rfl⟩
    obtain ⟨rank, hrank, -⟩ := exists_ranks_le haffords
    exact ⟨rank, hrank⟩

end

end FlowGraph

end Concolic
