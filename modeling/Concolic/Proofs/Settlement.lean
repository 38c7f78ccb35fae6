import Concolic.FlowGraph.WordSweep
import Concolic.Proofs.Moments

/-!
# The sweep of an atlas

The sweep that ranks the decisions of an atlas may keep its ranks in machine words.  No
rank exceeds the number of decisions, and no total that is tried exceeds it by more than
one.  So on an atlas of a reasonable size no sum is too large for a word, no rank reaches
the mark of the vertices without one, and words compare like the numbers that they stand
for.  The sweep in words is then the sweep in numbers, written as words.

This is shown of any flow graph first.  Together with the order of its moments it is all
there is to say of the sweep of an atlas as a loop: how its queue looks at every moment,
what it never does twice, when it ends, and that its sums fit.

## Main results

* `FlowGraph.WordSweep.after_eq_ok`: a sweep in words.
* `Atlas.sweep_settles_once`: the sweep of an atlas, at every moment.
-/

namespace Concolic

namespace FlowGraph

namespace WordSweep

variable {graph : FlowGraph} {tolled : Nat → Bool} {sweep : Sweep}

/-! ## Ranks as words -/

theorem toNat_unranked : unranked.toNat = 18446744073709551615 := rfl

theorem toNat_word {rank : Nat} (h : rank < unranked.toNat) :
    (word (some rank)).toNat = rank := by
  rw [toNat_unranked] at h
  apply UInt64.toNat_ofNat_of_lt
  show rank < 18446744073709551616
  omega

theorem toNat_wordToll (tolled : Nat → Bool) (v : Nat) :
    (wordToll tolled v).toNat = toll tolled v := by
  unfold wordToll toll
  split <;> rfl

/-- The sum of a rank and a toll, if a word has room for it. -/
theorem wordSum_eq_ok {before : Nat} (h : before + 1 < unranked.toNat) (v : Nat) :
    wordSum (word (some before)) (wordToll tolled v) =
      .ok (word (some (before + toll tolled v))) := by
  have hbefore : (word (some before)).toNat = before := toNat_word (by omega)
  have htoll := toNat_wordToll tolled v
  have hone := toll_le_one tolled v
  have htotal : (word (some (before + toll tolled v))).toNat = before + toll tolled v :=
    toNat_word (by omega)
  have hsmall : (word (some before)).toNat + (wordToll tolled v).toNat < UInt64.size := by
    rw [hbefore, htoll]
    rw [toNat_unranked] at h
    show before + toll tolled v < 18446744073709551616
    omega
  rw [wordSum, if_pos hsmall]
  apply congrArg Except.ok
  apply UInt64.toNat_inj.1
  rw [UInt64.toNat_add, Nat.mod_eq_of_lt hsmall, htotal, hbefore, htoll]

/-- Words compare like the ranks that they stand for, and the mark is above them. -/
theorem lt_word_iff {total : Nat} {known : Option Nat} (htotal : total < unranked.toNat)
    (hknown : ∀ rank, known = some rank → rank < unranked.toNat) :
    word (some total) < word known ↔ Sweep.improves total known = true := by
  rw [UInt64.lt_iff_toNat_lt, toNat_word htotal]
  cases known with
  | none =>
      show total < unranked.toNat ↔ Sweep.improves total none = true
      simp [htotal, Sweep.improves]
  | some rank =>
      rw [toNat_word (hknown rank rfl)]
      simp [Sweep.improves]

theorem rank_ofSweep (sweep : Sweep) {v : Nat} (hv : v < sweep.ranks.size) :
    (ofSweep sweep).rank v = .ok (word (sweep.rank? v)) := by
  simp [WordSweep.rank, ofSweep, Sweep.rank?, hv]

/-! ## Entering a vertex -/

/-- The ranks that have been given fit in words, with a place for each vertex. -/
structure Fits (graph : FlowGraph) (sweep : Sweep) : Prop where
  size : sweep.ranks.size = graph.size
  small : ∀ v rank, sweep.rank? v = some rank → rank < unranked.toNat

/-- A rank after an entry is an old one, or the total of the entry. -/
theorem rank?_enter {before v w rank : Nat} (hv : v < sweep.ranks.size)
    (hrank : (Sweep.enter tolled before sweep v).rank? w = some rank) :
    sweep.rank? w = some rank ∨ rank = before + toll tolled v := by
  by_cases himproves : Sweep.improves (before + toll tolled v) (sweep.rank? v) = true
  · simp only [Sweep.enter, total_eq, himproves, if_true] at hrank
    rw [Sweep.rank?, join_getElem?_setIfInBounds _ hv] at hrank
    by_cases hwv : w = v
    · rw [if_pos hwv, Option.some.injEq] at hrank
      exact Or.inr hrank.symm
    · rw [if_neg hwv] at hrank
      exact Or.inl hrank
  · simp only [Sweep.enter, total_eq, himproves] at hrank
    exact Or.inl hrank

theorem Fits.enter {before v : Nat} (h : Fits graph sweep)
    (hbefore : before + 1 < unranked.toNat) (hv : v < graph.size) :
    Fits graph (Sweep.enter tolled before sweep v) := by
  constructor
  · rw [Sweep.size_ranks_enter, h.size]
  · intro w rank hrank
    rcases rank?_enter (h.size ▸ hv) hrank with hold | htotal
    · exact h.small w rank hold
    · have hone := toll_le_one tolled v
      omega

theorem enter_eq_ok {before v : Nat} (h : Fits graph sweep)
    (hbefore : before + 1 < unranked.toNat) (hv : v < graph.size) :
    enter tolled (word (some before)) (ofSweep sweep) v =
      .ok (ofSweep (Sweep.enter tolled before sweep v)) := by
  have hone := toll_le_one tolled v
  have htotal : before + toll tolled v < unranked.toNat := by omega
  have hcompare := lt_word_iff htotal (h.small v)
  have hplace := rank_ofSweep sweep (h.size ▸ hv)
  rw [enter, wordSum_eq_ok hbefore, ok_bind, hplace, ok_bind, Sweep.enter, total_eq]
  by_cases himproves : Sweep.improves (before + toll tolled v) (sweep.rank? v) = true
  · rw [if_pos (hcompare.2 himproves)]
    simp only [himproves, if_true, ofSweep, Array.map_setIfInBounds]
    rfl
  · rw [if_neg (mt hcompare.1 himproves)]
    simp only [himproves]
    rfl

theorem foldlM_enter_eq_ok {before : Nat} (hbefore : before + 1 < unranked.toNat)
    {vs : List Nat} (hvs : ∀ v ∈ vs, v < graph.size) (h : Fits graph sweep) :
    vs.foldlM (enter tolled (word (some before))) (ofSweep sweep) =
      .ok (ofSweep (vs.foldl (Sweep.enter tolled before) sweep)) := by
  induction vs generalizing sweep with
  | nil => rfl
  | cons v vs ih =>
      obtain ⟨hv, hrest⟩ := List.forall_mem_cons.1 hvs
      rw [List.foldlM_cons, enter_eq_ok h hbefore hv, ok_bind, List.foldl_cons]
      exact ih hrest (h.enter hbefore hv)

/-! ## Steps -/

theorem word_toll (tolled : Nat → Bool) (v : Nat) :
    word (some (0 + toll tolled v)) = wordToll tolled v := by
  unfold wordToll toll
  split <;> rfl

/-- Both sweeps begin with a rank for the root alone. -/
theorem start_eq (graph : FlowGraph) (tolled : Nat → Bool) :
    start graph tolled = ofSweep (Sweep.start graph tolled) := by
  by_cases hroot : graph.root < graph.size
  · have hqueue : (if tolled graph.root then [] ++ [graph.root] else [graph.root]) =
        [graph.root] := ite_self _
    simp only [start, Sweep.start, hroot, if_true, Sweep.enter, total_eq,
      Sweep.rank?_blank, Sweep.improves, ofSweep, Array.map_setIfInBounds,
      Array.map_replicate, word_toll, hqueue]
    rfl
  · simp only [start, Sweep.start, hroot, if_false, ofSweep, Array.map_replicate]
    rfl

/-- A step in words, if what waits has a rank that fits. -/
theorem step_eq_ok (h : Fits graph sweep)
    (hwaits : ∀ u ∈ sweep.queue, u < graph.size ∧ ∃ before, sweep.rank? u = some before ∧
      before + 1 < unranked.toNat) :
    step graph tolled (ofSweep sweep) = .ok (ofSweep (Sweep.step graph tolled sweep)) := by
  cases hqueue : sweep.queue with
  | nil => simp only [step, Sweep.step, ofSweep, hqueue]
  | cons u rest =>
      obtain ⟨hu, before, hrank, hbefore⟩ := hwaits u (by rw [hqueue]; exact List.mem_cons_self)
      have hword : (ofSweep sweep).queue = u :: rest := hqueue
      have hopen : step graph tolled (ofSweep sweep) =
          (ofSweep sweep).rank u >>= fun before =>
            (graph.successors u).foldlM (enter tolled before)
              (ofSweep { sweep with queue := rest }) := by
        simp only [step, hword]
        rfl
      have hpopped : Fits graph { sweep with queue := rest } :=
        { size := h.size, small := h.small }
      have hvs : ∀ v ∈ graph.successors u, v < graph.size :=
        fun v hv => lt_size_of_mem_successors hv
      rw [Sweep.step_of_queue hqueue hrank, hopen, rank_ofSweep sweep (h.size ▸ hu), hrank,
        ok_bind]
      exact foldlM_enter_eq_ok hbefore hvs hpopped

/-- **Words are large enough**: on a graph with fewer tolled vertices than a word can
count, no sum that the sweep forms is too large, and the sweep in words has the ranks of
the sweep in numbers. -/
theorem after_eq_ok (hlimit : (List.range graph.size).countP tolled + 1 < unranked.toNat)
    (count : Nat) :
    after graph tolled count = .ok (ofSweep (Sweep.after graph tolled count)) := by
  induction count with
  | zero => exact congrArg Except.ok (start_eq graph tolled)
  | succ count ih =>
      obtain ⟨moves, -, hsweep⟩ := Sweep.exists_moment_after graph tolled count
      have horder := (Sweep.orderly_moment graph tolled moves).consistent
      have hbound : ∀ v rank, (Sweep.after graph tolled count).rank? v = some rank →
          rank ≤ (List.range graph.size).countP tolled := by
        intro v rank hrank
        rw [← hsweep] at hrank
        exact Sweep.rank?_moment_le hrank
      rw [hsweep] at horder
      show (after graph tolled count >>= step graph tolled) = _
      rw [ih, ok_bind]
      apply step_eq_ok
      · constructor
        · exact horder.size
        · intro v rank hrank
          have hle := hbound v rank hrank
          omega
      · intro u hu
        obtain ⟨before, hrank, -⟩ := horder.ahead u hu
        have hle := hbound u before hrank
        exact ⟨(horder.walked u before hrank).lt_size, before, hrank, by omega⟩

end WordSweep

end FlowGraph

namespace Atlas

open FlowGraph Sweep

/-- The sweep that ranks the decisions of an atlas, after a number of moves. -/
def moment (atlas : Atlas) (moves : Nat) : Moment :=
  Sweep.moment atlas.flow atlas.isDecision moves

/-- What holds of the sweep that ranks the decisions of an atlas, between any two moves. -/
structure SweptInOrder (atlas : Atlas) (now : Moment) : Prop where
  /-- The ranks in the queue: first the rank of the vertex that was left last, and behind
  it the next one. -/
  waiting : ∃ near far, now.sweep.queue.map now.sweep.rank? =
    List.replicate near (some now.level) ++ List.replicate far (some (now.level + 1))
  latest : now.left.head?.elim 0 Prod.snd = now.level
  /-- No vertex was left with a lower rank than one before it. -/
  rising : now.left.Pairwise fun later earlier => earlier.2 ≤ later.2
  /-- A vertex still has the rank with which it was left. -/
  kept : ∀ entry ∈ now.left, now.sweep.rank? entry.1 = some entry.2
  /-- No vertex joined the queue twice. -/
  once : now.joined.Nodup
  /-- What joined the queue is what waits and what was left. -/
  joined : now.joined.Perm (now.sweep.queue ++ now.left.map Prod.fst)
  /-- The queue was popped no more often than there are vertices. -/
  few : now.left.length ≤ atlas.size
  /-- No rank exceeds the number of decisions. -/
  small : ∀ v rank, now.sweep.rank? v = some rank → rank ≤ atlas.decisions.length
  total : ∀ v, now.level + toll atlas.isDecision v ≤ atlas.decisions.length + 1
  /-- As many steps were begun as vertices were left. -/
  steps : now.completed atlas.isDecision =
    Sweep.after atlas.flow atlas.isDecision now.left.length

section

variable {atlas : Atlas}

theorem countP_range_size_flow (atlas : Atlas) :
    (List.range atlas.flow.size).countP atlas.isDecision = atlas.decisions.length := by
  rw [size_flow, List.countP_eq_length_filter]
  rfl

theorem exits_flow (atlas : Atlas) :
    exits atlas.flow (List.range atlas.flow.size) = atlas.edgeList.length := by
  unfold exits edgeList
  rw [List.length_flatMap, size_flow]
  apply congrArg List.sum
  apply List.map_congr_left
  intro u hu
  rw [successors_flow (List.mem_range.1 hu), List.length_map]

theorem length_decisions_le (atlas : Atlas) : atlas.decisions.length ≤ atlas.size := by
  have hle := List.length_filter_le atlas.isDecision atlas.ids
  rwa [ids, List.length_range] at hle

theorem sweptInOrder_moment (atlas : Atlas) (moves : Nat) :
    SweptInOrder atlas (atlas.moment moves) := by
  have horder := orderly_moment atlas.flow atlas.isDecision moves
  have hlevel := level_moment_le atlas.flow atlas.isDecision moves
  have hleft := horder.length_left_le
  rw [countP_range_size_flow] at hlevel
  rw [size_flow] at hleft
  refine
    { waiting := horder.consistent.exists_ranks_queue
      latest := horder.latest
      rising := horder.rising
      kept := horder.kept
      once := horder.nodup_joined
      joined := horder.joined
      few := ?_
      small := ?_
      total := ?_
      steps := completed_moment atlas.flow atlas.isDecision moves }
  · exact (Nat.le_add_left _ _).trans hleft
  · intro v rank hrank
    rw [← countP_range_size_flow]
    exact rank?_moment_le hrank
  · intro v
    exact Nat.add_le_add hlevel (toll_le_one atlas.isDecision v)

theorem moment_ends {moves : Nat} (hmoves : atlas.size + atlas.edgeList.length ≤ moves) :
    (atlas.moment moves).isOver = true ∧
      (atlas.moment moves).sweep.ranks = atlas.flow.ranks atlas.isDecision := by
  rw [← exits_flow, ← size_flow] at hmoves
  have hover : (atlas.moment moves).isOver = true := isOver_moment hmoves
  refine ⟨hover, ?_⟩
  unfold moment at hover ⊢
  rw [sweep_moment_of_isOver hover]
  rfl

/-- The number of decisions is what a word has to have room for. -/
theorem words_suffice (hsize : atlas.size < 2 ^ 32) (count : Nat) :
    WordSweep.after atlas.flow atlas.isDecision count =
      .ok (WordSweep.ofSweep (Sweep.after atlas.flow atlas.isDecision count)) := by
  have hdecisions := length_decisions_le atlas
  apply WordSweep.after_eq_ok
  rw [countP_range_size_flow, WordSweep.toNat_unranked]
  omega

/-- **The sweep settles each vertex once.**  Between any two moves, the ranks in the queue
ascend and span two consecutive numbers at most, vertices were left in the order of their
ranks, no vertex joined the queue twice, and no rank exceeds the number of decisions.  A
rank that was given is never changed.  The sweep ends, with the ranks that are its result,
before there are more moves than vertices and edges, and at most as many vertices were
left as there are.  On an atlas of fewer than `2 ^ 32` vertices the sums of ranks and
tolls fit in words. -/
theorem sweep_settles_once (atlas : Atlas) :
    (∀ moves, SweptInOrder atlas (atlas.moment moves)) ∧
    (∀ moves later v rank, moves ≤ later →
      (atlas.moment moves).sweep.rank? v = some rank →
        (atlas.moment later).sweep.rank? v = some rank) ∧
    (∀ moves, atlas.size + atlas.edgeList.length ≤ moves →
      (atlas.moment moves).isOver = true ∧
        (atlas.moment moves).sweep.ranks = atlas.flow.ranks atlas.isDecision) ∧
    (atlas.size < 2 ^ 32 → ∀ count,
      WordSweep.after atlas.flow atlas.isDecision count =
        .ok (WordSweep.ofSweep (Sweep.after atlas.flow atlas.isDecision count))) := by
  refine ⟨sweptInOrder_moment atlas, ?_, ?_, words_suffice⟩
  · intro moves later v rank hle hrank
    exact rank?_moment_of_le hle hrank
  · intro moves hmoves
    exact moment_ends hmoves

end

/-- The observation whether a loop goes on. -/
def lap (again : Bool) : Clause :=
  .jump 1 (.equal (.var "again") (.bool again))

/-- A run that goes twice around a loop, and one that passes it by. -/
def laps : List Event :=
  [.run [.effect 0 "begin", lap true, .effect 2 "walk", lap true, .effect 2 "walk", lap false],
    .run [.effect 0 "begin", lap false]]

/-- The way around the loop comes back to a vertex that has a rank. -/
theorem sweep_settles_once_laps :
    ∃ atlas, (empty {}).replay laps = .ok atlas ∧
      (atlas.moment 2).sweep.rank? 1 = some 1 ∧ (atlas.moment 9).sweep.rank? 1 = some 1 ∧
      (atlas.moment 9).isOver = true ∧ (atlas.moment 9).left.length ≤ 4 ∧
      WordSweep.after atlas.flow atlas.isDecision 4 =
        .ok (WordSweep.ofSweep (Sweep.after atlas.flow atlas.isDecision 4)) := by
  have hvalue : ((empty {}).replay laps).map (fun atlas =>
      (atlas.size, atlas.edgeList.length, (atlas.moment 2).sweep.rank? 1)) =
        .ok (4, 5, some 1) := by
    rfl
  obtain ⟨atlas, h, hvalue⟩ := exists_of_map_eq_ok hvalue
  simp only [Prod.mk.injEq] at hvalue
  obtain ⟨hsize, hedges, hrank⟩ := hvalue
  obtain ⟨hmoments, hstands, hends, hwords⟩ := sweep_settles_once atlas
  refine ⟨atlas, h, hrank, hstands 2 9 1 1 (by decide) hrank, ?_, ?_, ?_⟩
  · exact (hends 9 (by rw [hsize, hedges])).1
  · have hfew := (hmoments 9).few
    rwa [hsize] at hfew
  · exact hwords (by rw [hsize]; decide) 4

end Atlas

end Concolic
