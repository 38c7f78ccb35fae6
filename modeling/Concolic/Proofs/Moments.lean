import Concolic.FlowGraph.Moments
import Concolic.Proofs.DominatorTree

/-!
# A sweep settles each vertex once

A sweep looks at no mark of what it has done.  It takes the next vertex off the queue,
whichever that is, and lets a vertex join whenever a lower rank is found for it.  That no
vertex joins twice is due to the order of the queue alone.  At every moment the vertices
in the queue have the rank of the vertex that was left last, in front, or the next rank,
behind them.  So whatever is entered from there gets a rank that no vertex with a rank
could improve on.

Hence a rank stands from the moment when it is given, and it is the rank in the result.
It is then the toll of a walk that visits no vertex twice, which bounds it by the number
of tolled vertices.

## Main results

* `Sweep.Moment.Orderly.next_cases`, `Sweep.Moment.Orderly.next`: what a move does, and
  that it keeps the order.
* `Sweep.orderly_moment`, `Sweep.rank?_moment_of_le`: the order of all moments; no rank is
  changed between them.
* `Sweep.completed_moment`, `Sweep.exists_moment_after`: moments and steps.
* `Sweep.isOver_moment`: there are no more moves than vertices and edges.
* `Sweep.rank?_moment_le`: no rank exceeds the number of tolled vertices.
-/

namespace Concolic

namespace FlowGraph

/-- The number of successors of the vertices in a list. -/
def exits (graph : FlowGraph) (vs : List Nat) : Nat :=
  (vs.map fun u => (graph.successors u).length).sum

namespace Sweep

section

variable {graph : FlowGraph} {tolled : Nat → Bool} {level : Nat} {left : List Nat}
variable {sweep : Sweep}

/-! ## The order of the queue -/

/-- Numbers that ascend and take two consecutive values at most are those values, one
after the other. -/
theorem exists_eq_replicate_append {α : Type} {f : α → Option Nat} {xs : List α}
    (hspan : ∀ x ∈ xs, f x = some level ∨ f x = some (level + 1))
    (hsorted : xs.Pairwise fun x y => ∀ r s, f x = some r → f y = some s → r ≤ s) :
    ∃ near far, xs.map f =
      List.replicate near (some level) ++ List.replicate far (some (level + 1)) := by
  induction xs with
  | nil => exact ⟨0, 0, rfl⟩
  | cons x xs ih =>
      obtain ⟨hx, hxs⟩ := List.forall_mem_cons.1 hspan
      obtain ⟨hfirst, hrest⟩ := List.pairwise_cons.1 hsorted
      rcases hx with hnear | hfar
      · obtain ⟨near, far, heq⟩ := ih hxs hrest
        refine ⟨near + 1, far, ?_⟩
        rw [List.map_cons, hnear, heq, List.replicate_succ, List.cons_append]
      · -- nothing behind the first of the higher values is lower
        have hall : ∀ y ∈ xs, f y = some (level + 1) := by
          intro y hy
          rcases hxs y hy with hlow | hhigh
          · have hle := hfirst y hy (level + 1) level hfar hlow
            omega
          · exact hhigh
        refine ⟨0, xs.length + 1, ?_⟩
        rw [List.map_cons, hfar, List.replicate_zero, List.nil_append, List.replicate_succ]
        exact congrArg _ (List.map_eq_replicate_iff.2 hall)

/-- **The ranks in the queue**: those of the level in front, and behind them those of the
next. -/
theorem Consistent.exists_ranks_queue (h : Consistent graph tolled level left sweep) :
    ∃ near far, sweep.queue.map sweep.rank? =
      List.replicate near (some level) ++ List.replicate far (some (level + 1)) := by
  refine exists_eq_replicate_append ?_ h.sorted
  intro v hv
  obtain ⟨rank, hrank, hlevel⟩ := h.ahead v hv
  have hnear := h.near v rank hrank
  have hone := toll_le_one tolled v
  rw [hrank, Option.some.injEq, Option.some.injEq]
  omega

/-! ## Joining the queue -/

/-- What enters without joining changes nothing. -/
theorem enter_of_not_joins {before v : Nat} (hstay : joins tolled before sweep v = false) :
    Sweep.enter tolled before sweep v = sweep := by
  unfold joins at hstay
  simp only [Sweep.enter, hstay, Bool.false_eq_true, if_false]

/-- A vertex joins if it has no rank, and only then. -/
theorem Consistent.joins_iff {v : Nat} (h : Consistent graph tolled level left sweep) :
    joins tolled level sweep v = true ↔ sweep.rank? v = none := by
  unfold joins
  rw [total_eq]
  cases hrank : sweep.rank? v with
  | none => simp [improves]
  | some known =>
      have hnear := h.near v known hrank
      simp only [improves, decide_eq_true_eq, reduceCtorEq, iff_false]
      omega

/-! ## The order of moments -/

/-- What holds at every moment of a sweep. -/
structure Moment.Orderly (graph : FlowGraph) (tolled : Nat → Bool) (now : Moment) : Prop where
  consistent : Consistent graph tolled now.level (now.left.map Prod.fst) now.sweep
  afforded : ∀ v ∈ now.ahead, graph.Affords tolled v (now.level + toll tolled v)
  /-- A vertex keeps the rank with which it was left. -/
  kept : ∀ entry ∈ now.left, now.sweep.rank? entry.1 = some entry.2
  rising : now.left.Pairwise fun later earlier => earlier.2 ≤ later.2
  latest : now.left.head?.elim 0 Prod.snd = now.level
  /-- What joined the queue waits or has left. -/
  joined : now.joined.Perm (now.sweep.queue ++ now.left.map Prod.fst)

variable {now : Moment}

theorem Moment.orderly_first (graph : FlowGraph) (tolled : Nat → Bool) :
    (Moment.first graph tolled).Orderly graph tolled :=
  { consistent := (settled_start graph tolled).toConsistent
    afforded := fun v hv => absurd hv List.not_mem_nil
    kept := fun entry hentry => absurd hentry List.not_mem_nil
    rising := List.Pairwise.nil
    latest := rfl
    joined := by
      show (start graph tolled).queue.Perm ((start graph tolled).queue ++ [])
      rw [List.append_nil] }

theorem Moment.isOver_iff :
    now.isOver = true ↔ now.ahead = [] ∧ now.sweep.queue = [] := by
  rw [Moment.isOver, Bool.and_eq_true, List.isEmpty_iff, List.isEmpty_iff]

theorem Moment.next_of_ahead {v : Nat} {rest : List Nat} (hahead : now.ahead = v :: rest) :
    now.next graph tolled = now.enter tolled v rest := by
  simp only [Moment.next, hahead]

theorem Moment.next_of_queue {u rank : Nat} {rest : List Nat} (hahead : now.ahead = [])
    (hqueue : now.sweep.queue = u :: rest) (hrank : now.sweep.rank? u = some rank) :
    now.next graph tolled = now.leave graph u rank rest := by
  simp only [Moment.next, hahead, hqueue, hrank]

theorem Moment.next_of_isOver (hover : now.isOver = true) : now.next graph tolled = now := by
  obtain ⟨hahead, hqueue⟩ := Moment.isOver_iff.1 hover
  simp only [Moment.next, hahead, hqueue]

namespace Moment.Orderly

/-- What waits in front has a rank. -/
theorem exists_rank {u : Nat} {rest : List Nat} (h : now.Orderly graph tolled)
    (hqueue : now.sweep.queue = u :: rest) :
    ∃ rank, now.sweep.rank? u = some rank ∧ now.level ≤ rank :=
  h.consistent.ahead u (by rw [hqueue]; exact List.mem_cons_self)

/-- **What a move does**: it enters a vertex that is ahead, or leaves one that waits and
has a rank, or there is nothing left to do. -/
theorem next_cases (h : now.Orderly graph tolled) :
    (∃ v rest, now.ahead = v :: rest ∧ now.next graph tolled = now.enter tolled v rest) ∨
    (∃ u rank rest, now.ahead = [] ∧ now.sweep.queue = u :: rest ∧
      now.sweep.rank? u = some rank ∧
        now.next graph tolled = now.leave graph u rank rest) ∨
    (now.isOver = true ∧ now.next graph tolled = now) := by
  cases hahead : now.ahead with
  | cons v rest => exact Or.inl ⟨v, rest, rfl, next_of_ahead hahead⟩
  | nil =>
      right
      cases hqueue : now.sweep.queue with
      | cons u rest =>
          obtain ⟨rank, hrank, -⟩ := h.exists_rank hqueue
          exact Or.inl ⟨u, rank, rest, rfl, rfl, hrank, next_of_queue hahead hqueue hrank⟩
      | nil =>
          have hover := isOver_iff.2 ⟨hahead, hqueue⟩
          exact Or.inr ⟨hover, next_of_isOver hover⟩

/-- A vertex is entered, at whichever end of the queue. -/
theorem enter {v : Nat} {rest : List Nat} (h : now.Orderly graph tolled)
    (hahead : now.ahead = v :: rest) : (now.enter tolled v rest).Orderly graph tolled := by
  have hafforded := h.afforded
  rw [hahead] at hafforded
  obtain ⟨hv, hrest⟩ := List.forall_mem_cons.1 hafforded
  refine
    { consistent := h.consistent.enter hv
      afforded := hrest
      kept := ?_
      rising := h.rising
      latest := h.latest
      joined := ?_ }
  · intro entry hentry
    exact h.consistent.rank?_enter hv (h.kept entry hentry)
  · show (if joins tolled now.level now.sweep v then v :: now.joined else now.joined).Perm
      ((Sweep.enter tolled now.level now.sweep v).queue ++ now.left.map Prod.fst)
    by_cases hjoins : joins tolled now.level now.sweep v = true
    · have hqueue := queue_enter_perm tolled now.level (h.consistent.joins_iff.1 hjoins)
      rw [if_pos hjoins]
      exact (h.joined.cons v).trans (hqueue.symm.append_right _)
    · rw [if_neg hjoins, enter_of_not_joins (Bool.eq_false_iff.2 hjoins)]
      exact h.joined

/-- A vertex was left with a rank up to the level. -/
theorem le_level {entry : Nat × Nat} (h : now.Orderly graph tolled)
    (hentry : entry ∈ now.left) : entry.2 ≤ now.level := by
  obtain ⟨rank, hrank, hle⟩ := h.consistent.behind entry.1 (List.mem_map_of_mem hentry)
  rw [h.kept entry hentry] at hrank
  rwa [Option.some.inj hrank]

/-- A vertex is left, and its rank is the next level. -/
theorem leave {u rank : Nat} {rest : List Nat} (h : now.Orderly graph tolled)
    (hqueue : now.sweep.queue = u :: rest) (hrank : now.sweep.rank? u = some rank) :
    (now.leave graph u rank rest).Orderly graph tolled := by
  refine
    { consistent := h.consistent.pop hqueue hrank
      afforded := ?_
      kept := ?_
      rising := ?_
      latest := rfl
      joined := ?_ }
  · intro v hv
    exact (h.consistent.walked u rank hrank).step hv
  · intro entry hentry
    rcases List.mem_cons.1 hentry with rfl | hold
    · exact hrank
    · exact h.kept entry hold
  · refine List.pairwise_cons.2 ⟨?_, h.rising⟩
    intro entry hentry
    obtain ⟨level, hlevel, hle⟩ := h.exists_rank hqueue
    rw [hrank] at hlevel
    cases hlevel
    exact (h.le_level hentry).trans hle
  · have hperm := h.joined
    rw [hqueue] at hperm
    exact hperm.trans List.perm_middle.symm

/-- **A move keeps the order.** -/
theorem next (h : now.Orderly graph tolled) : (now.next graph tolled).Orderly graph tolled := by
  rcases h.next_cases with ⟨v, rest, hahead, hnext⟩ |
    ⟨u, rank, rest, -, hqueue, hrank, hnext⟩ | ⟨-, hnext⟩
  · rw [hnext]
    exact h.enter hahead
  · rw [hnext]
    exact h.leave hqueue hrank
  · rw [hnext]
    exact h

/-- **No vertex joins the queue twice.** -/
theorem nodup_joined (h : now.Orderly graph tolled) : now.joined.Nodup :=
  h.joined.nodup_iff.2 h.consistent.nodup

/-- A move changes no rank. -/
theorem rank?_next {v rank : Nat} (h : now.Orderly graph tolled)
    (hrank : now.sweep.rank? v = some rank) :
    (now.next graph tolled).sweep.rank? v = some rank := by
  rcases h.next_cases with ⟨w, rest, hahead, hnext⟩ | ⟨_, _, _, -, -, -, hnext⟩ | ⟨-, hnext⟩
  · have hw := h.afforded w (by rw [hahead]; exact List.mem_cons_self)
    rw [hnext]
    exact h.consistent.rank?_enter hw hrank
  · rw [hnext]
    exact hrank
  · rw [hnext]
    exact hrank

end Moment.Orderly

/-- **The sweep is in order at every moment.** -/
theorem orderly_moment (graph : FlowGraph) (tolled : Nat → Bool) (moves : Nat) :
    (moment graph tolled moves).Orderly graph tolled := by
  induction moves with
  | zero => exact Moment.orderly_first graph tolled
  | succ moves ih => exact ih.next

/-- **A rank stands** from the moment when it is given. -/
theorem rank?_moment_of_le {moves later v rank : Nat} (hle : moves ≤ later)
    (hrank : (moment graph tolled moves).sweep.rank? v = some rank) :
    (moment graph tolled later).sweep.rank? v = some rank := by
  induction later, hle using Nat.le_induction with
  | base => exact hrank
  | succ later _ ih => exact (orderly_moment graph tolled later).rank?_next ih

/-! ## Moments and steps -/

/-- Between two steps nothing is to be entered. -/
theorem Moment.completed_of_ahead (hahead : now.ahead = []) :
    now.completed tolled = now.sweep := by
  unfold Moment.completed
  rw [hahead, List.foldl_nil]

/-- Entering a vertex that is ahead is a part of the step that is under way. -/
theorem Moment.completed_enter {v : Nat} {rest : List Nat} (hahead : now.ahead = v :: rest) :
    (now.enter tolled v rest).completed tolled = now.completed tolled := by
  show rest.foldl (Sweep.enter tolled now.level) (Sweep.enter tolled now.level now.sweep v) =
    now.ahead.foldl (Sweep.enter tolled now.level) now.sweep
  rw [hahead, List.foldl_cons]

/-- Leaving a vertex begins a step. -/
theorem Moment.completed_leave {u rank : Nat} {rest : List Nat}
    (hqueue : now.sweep.queue = u :: rest) (hrank : now.sweep.rank? u = some rank) :
    (now.leave graph u rank rest).completed tolled = step graph tolled now.sweep := by
  rw [step_of_queue hqueue hrank]
  rfl

/-- **Moments are parts of steps**: there was a step for each vertex that was left, and
the last of them is complete when all that is ahead has been entered. -/
theorem completed_moment (graph : FlowGraph) (tolled : Nat → Bool) (moves : Nat) :
    (moment graph tolled moves).completed tolled =
      after graph tolled (moment graph tolled moves).left.length := by
  induction moves with
  | zero => rfl
  | succ moves ih =>
      show ((moment graph tolled moves).next graph tolled).completed tolled =
        after graph tolled ((moment graph tolled moves).next graph tolled).left.length
      rcases (orderly_moment graph tolled moves).next_cases with ⟨v, rest, hahead, hnext⟩ |
        ⟨u, rank, rest, hahead, hqueue, hrank, hnext⟩ | ⟨-, hnext⟩
      · rw [hnext, Moment.completed_enter hahead]
        exact ih
      · rw [Moment.completed_of_ahead hahead] at ih
        rw [hnext, Moment.completed_leave hqueue hrank, ih]
        rfl
      · rw [hnext]
        exact ih

/-- A vertex after the other, all that is ahead is entered. -/
theorem exists_moment_completed (graph : FlowGraph) (tolled : Nat → Bool) (moves : Nat) :
    ∃ later, (moment graph tolled later).ahead = [] ∧
      (moment graph tolled later).sweep = (moment graph tolled moves).completed tolled := by
  generalize hlength : (moment graph tolled moves).ahead.length = length
  -- by the number of vertices ahead, each of which takes one move
  induction length generalizing moves with
  | zero =>
      have hahead := List.eq_nil_of_length_eq_zero hlength
      exact ⟨moves, hahead, (Moment.completed_of_ahead hahead).symm⟩
  | succ length ih =>
      obtain ⟨v, rest, hahead⟩ := List.exists_cons_of_length_eq_add_one hlength
      have hnext : moment graph tolled (moves + 1) =
          (moment graph tolled moves).enter tolled v rest :=
        Moment.next_of_ahead hahead
      have hrest : (moment graph tolled (moves + 1)).ahead.length = length := by
        rw [hahead, List.length_cons] at hlength
        rw [hnext]
        exact Nat.succ.inj hlength
      obtain ⟨later, hdone, hsweep⟩ := ih (moves + 1) hrest
      rw [hnext, Moment.completed_enter hahead] at hsweep
      exact ⟨later, hdone, hsweep⟩

theorem after_succ_of_queue_nil {count : Nat} (hqueue : (after graph tolled count).queue = []) :
    after graph tolled (count + 1) = after graph tolled count := by
  show step graph tolled (after graph tolled count) = after graph tolled count
  simp only [step, hqueue]

/-- With the queue empty, the steps that follow change nothing. -/
theorem after_of_queue_nil {count later : Nat} (hqueue : (after graph tolled count).queue = [])
    (hle : count ≤ later) : after graph tolled later = after graph tolled count := by
  induction later, hle using Nat.le_induction with
  | base => rfl
  | succ later _ ih =>
      rw [← ih] at hqueue
      rw [after_succ_of_queue_nil hqueue, ih]

/-- **Steps end at moments.** -/
theorem exists_moment_after (graph : FlowGraph) (tolled : Nat → Bool) (count : Nat) :
    ∃ moves, (moment graph tolled moves).ahead = [] ∧
      (moment graph tolled moves).sweep = after graph tolled count := by
  induction count with
  | zero => exact ⟨0, rfl, rfl⟩
  | succ count ih =>
      obtain ⟨moves, hahead, hsweep⟩ := ih
      cases hqueue : (moment graph tolled moves).sweep.queue with
      | nil =>
          rw [hsweep] at hqueue
          exact ⟨moves, hahead, hsweep.trans (after_succ_of_queue_nil hqueue).symm⟩
      | cons u rest =>
          obtain ⟨rank, hrank, -⟩ := (orderly_moment graph tolled moves).exists_rank hqueue
          have hnext : moment graph tolled (moves + 1) =
              (moment graph tolled moves).leave graph u rank rest :=
            Moment.next_of_queue hahead hqueue hrank
          obtain ⟨later, hdone, hlater⟩ := exists_moment_completed graph tolled (moves + 1)
          rw [hnext, Moment.completed_leave hqueue hrank, hsweep] at hlater
          exact ⟨later, hdone, hlater⟩

/-! ## The number of moves -/

/-- Distinct vertices have no more successors than all together. -/
theorem exits_le {vs : List Nat} (hnodup : vs.Nodup) (hvertices : ∀ v ∈ vs, v < graph.size) :
    exits graph vs ≤ exits graph (List.range graph.size) := by
  have hsubset : vs ⊆ List.range graph.size :=
    fun v hv => List.mem_range.2 (hvertices v hv)
  obtain ⟨ordered, hperm, hsublist⟩ := List.subperm_of_subset hnodup hsubset
  unfold exits
  rw [← (hperm.map _).sum_eq]
  exact (hsublist.map _).sum_le_sum fun _ _ => Nat.zero_le _

/-- As long as there are moves left, each move was made to leave a vertex or to enter a
successor of one that was left. -/
theorem isOver_or_add_length_ahead_eq (graph : FlowGraph) (tolled : Nat → Bool) (moves : Nat) :
    (moment graph tolled moves).isOver = true ∨
      moves + (moment graph tolled moves).ahead.length =
        (moment graph tolled moves).left.length +
          exits graph ((moment graph tolled moves).left.map Prod.fst) := by
  induction moves with
  | zero => exact Or.inr rfl
  | succ moves ih =>
      show ((moment graph tolled moves).next graph tolled).isOver = true ∨
        moves + 1 + ((moment graph tolled moves).next graph tolled).ahead.length =
          ((moment graph tolled moves).next graph tolled).left.length +
            exits graph (((moment graph tolled moves).next graph tolled).left.map Prod.fst)
      rcases ih with hover | hcount
      · rw [Moment.next_of_isOver hover]
        exact Or.inl hover
      · rcases (orderly_moment graph tolled moves).next_cases with ⟨v, rest, hahead, hnext⟩ |
          ⟨u, rank, rest, hahead, -, -, hnext⟩ | ⟨hover, hnext⟩
        · right
          rw [hahead, List.length_cons] at hcount
          rw [hnext]
          show moves + 1 + rest.length = (moment graph tolled moves).left.length +
            exits graph ((moment graph tolled moves).left.map Prod.fst)
          omega
        · right
          rw [hahead, List.length_nil] at hcount
          rw [hnext]
          show moves + 1 + (graph.successors u).length =
            (moment graph tolled moves).left.length + 1 + ((graph.successors u).length +
              exits graph ((moment graph tolled moves).left.map Prod.fst))
          omega
        · rw [hnext]
          exact Or.inl hover

theorem Moment.Orderly.lt_size (h : now.Orderly graph tolled) {v : Nat}
    (hv : v ∈ now.left.map Prod.fst) : v < graph.size := by
  obtain ⟨rank, hrank, -⟩ := h.consistent.behind v hv
  exact (h.consistent.walked v rank hrank).lt_size

/-- A vertex leaves the queue at most once. -/
theorem Moment.Orderly.length_left_le (h : now.Orderly graph tolled) :
    now.sweep.queue.length + now.left.length ≤ graph.size := by
  have hle := h.consistent.length_le
  rwa [List.length_map] at hle

/-- **The sweep ends**: there are no more moves than vertices and edges. -/
theorem isOver_moment {moves : Nat}
    (hmoves : graph.size + exits graph (List.range graph.size) ≤ moves) :
    (moment graph tolled moves).isOver = true := by
  have horder := orderly_moment graph tolled moves
  have hexits := exits_le (List.nodup_append.1 horder.consistent.nodup).2.1
    fun v hv => horder.lt_size hv
  have hleft := horder.length_left_le
  rcases isOver_or_add_length_ahead_eq graph tolled moves with hover | hcount
  · exact hover
  · -- all edges are used up, and so are all vertices: one that waits was not left
    have hahead : (moment graph tolled moves).ahead = [] := by
      apply List.eq_nil_of_length_eq_zero
      omega
    have hqueue : (moment graph tolled moves).sweep.queue = [] := by
      apply List.eq_nil_of_length_eq_zero
      omega
    rw [Moment.isOver, hahead, hqueue]
    rfl

/-- At the end all steps were made. -/
theorem sweep_moment_of_isOver {moves : Nat}
    (hover : (moment graph tolled moves).isOver = true) :
    (moment graph tolled moves).sweep = after graph tolled graph.size := by
  obtain ⟨hahead, hqueue⟩ := Moment.isOver_iff.1 hover
  have hsteps := completed_moment graph tolled moves
  rw [Moment.completed_of_ahead hahead] at hsteps
  have hleft := (orderly_moment graph tolled moves).length_left_le
  rw [hsteps] at hqueue ⊢
  refine (after_of_queue_nil hqueue ?_).symm
  omega

/-! ## Bounds of ranks -/

/-- A rank that was given is the rank in the result. -/
theorem ranks_of_rank?_moment {moves v rank : Nat}
    (hrank : (moment graph tolled moves).sweep.rank? v = some rank) :
    (graph.ranks tolled)[v]?.join = some rank := by
  obtain ⟨last, hmoves, hlater⟩ : ∃ last,
      graph.size + exits graph (List.range graph.size) ≤ last ∧ moves ≤ last :=
    ⟨_, Nat.le_max_left _ _, Nat.le_max_right _ _⟩
  have hlast := rank?_moment_of_le hlater hrank
  rwa [sweep_moment_of_isOver (isOver_moment hmoves)] at hlast

end

end Sweep

section

variable {graph : FlowGraph} {tolled : Nat → Bool}

/-- The rank of a vertex is no more than the number of tolled vertices: some walk to it
visits each of them at most once. -/
theorem ranks_le_countP {v rank : Nat} (hrank : (graph.ranks tolled)[v]?.join = some rank) :
    rank ≤ (List.range graph.size).countP tolled := by
  obtain ⟨⟨route, hroute, -⟩, hleast⟩ := ranks_eq_some_iff.1 hrank
  obtain ⟨back, hwalk, hnodup⟩ := exists_nodup_walk ⟨route, hroute⟩
  have hsubset : v :: back ⊆ List.range graph.size := by
    intro w hw
    obtain ⟨recent, rest, hsplit⟩ := List.append_of_mem hw
    rw [hsplit] at hwalk
    exact List.mem_range.2 hwalk.earlier.lt_size
  have hcount : rank ≤ tolls tolled (v :: back) := hleast ⟨back, hwalk, rfl⟩
  exact hcount.trans ((List.subperm_of_subset hnodup hsubset).countP_le tolled)

namespace Sweep

theorem rank?_moment_le {moves v rank : Nat}
    (hrank : (moment graph tolled moves).sweep.rank? v = some rank) :
    rank ≤ (List.range graph.size).countP tolled :=
  ranks_le_countP (ranks_of_rank?_moment hrank)

/-- The level is the rank of a vertex that was left, if it is not zero. -/
theorem level_moment_le (graph : FlowGraph) (tolled : Nat → Bool) (moves : Nat) :
    (moment graph tolled moves).level ≤ (List.range graph.size).countP tolled := by
  have horder := orderly_moment graph tolled moves
  rw [← horder.latest]
  cases hleft : (moment graph tolled moves).left with
  | nil => exact Nat.zero_le _
  | cons entry rest =>
      apply rank?_moment_le
      exact horder.kept entry (by rw [hleft]; exact List.mem_cons_self)

end Sweep

end

end FlowGraph

end Concolic
