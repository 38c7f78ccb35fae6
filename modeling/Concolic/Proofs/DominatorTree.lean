import Concolic.Proofs.Layers

/-!
# The tree of dominators

All dominators of a vertex lie on one way to it, so they stand in a row.  Take two
of them on a way that passes no vertex twice.  From the nearer one the way goes on
to the end without the farther one, and it may be entered at the nearer one in any
other way; so every way to the nearer one has passed the farther one before.  Hence
the farther one dominates the nearer, and what dominates a dominator is the rest of
the row behind it.  The vertex that comes next in a row is then the same in every
row, and this makes it the parent of the vertex in a tree, with the root on top.

## Main results

* `FlowGraph.Dominates.antisymm`: dominance orders the vertices within reach.
* `FlowGraph.pairwise_dominators`: the farther of two dominators dominates the nearer.
* `FlowGraph.dominators_of_append`: rows of dominators end alike.
* `FlowGraph.immediateDominator?_eq_some_iff`: the parent of a vertex is its closest
  dominator.
* `Atlas.dominators_form_tree`: the tree of an atlas, said of its routes.
-/

namespace Concolic

namespace FlowGraph

section

variable {graph : FlowGraph} {a b c v : Nat}

/-! ## Dominance as an order -/

theorem Dominates.refl (h : graph.Reachable v) : graph.Dominates v v :=
  ⟨h, fun _ _ => List.mem_cons_self⟩

/-- Every walk begins at the root, so the root dominates whatever is within reach. -/
theorem root_dominates (h : graph.Reachable v) : graph.Dominates graph.root v :=
  ⟨h, fun _ hwalk => hwalk.start_mem⟩

/-- A dominator was passed on the way, so it is within reach itself. -/
theorem Dominates.reachable_left (h : graph.Dominates a v) : graph.Reachable a := by
  obtain ⟨back, hwalk⟩ := h.reachable
  obtain ⟨recent, rest, hsplit⟩ := List.append_of_mem (h.2 back hwalk)
  rw [hsplit] at hwalk
  exact ⟨rest, hwalk.earlier⟩

theorem Dominates.trans (hab : graph.Dominates a b) (hbc : graph.Dominates b c) :
    graph.Dominates a c := by
  constructor
  · exact hbc.reachable
  · intro back hwalk
    obtain ⟨recent, rest, hsplit⟩ := List.append_of_mem (hbc.2 back hwalk)
    rw [hsplit] at hwalk ⊢
    have hmem : a ∈ b :: rest := hab.2 rest hwalk.earlier
    exact List.mem_append_right recent hmem

/-- Some walk to a vertex within reach visits no vertex twice. -/
theorem exists_nodup_walk (h : graph.Reachable v) :
    ∃ back, graph.Walk graph.root (v :: back) ∧ (v :: back).Nodup := by
  obtain ⟨route, hroute⟩ := Option.isSome_iff_exists.1 (isSome_route_iff.2 h)
  obtain ⟨back, rfl, hwalk⟩ := walk_of_route hroute
  exact ⟨back, hwalk, nodup_of_routes hroute⟩

/-- **Dominance is antisymmetric.**  On a walk to `b` that visits `b` at its end
only, what comes before `a` does not visit `b`. -/
theorem Dominates.antisymm (hab : graph.Dominates a b) (hba : graph.Dominates b a) :
    a = b := by
  obtain ⟨back, hwalk, hnodup⟩ := exists_nodup_walk hab.reachable
  have hfresh : b ∉ back := (List.nodup_cons.1 hnodup).1
  by_contra hne
  have hmem : a ∈ back := (List.mem_cons.1 (hab.2 back hwalk)).resolve_left hne
  obtain ⟨recent, rest, rfl⟩ := List.append_of_mem hmem
  have hcut : graph.Walk graph.root ((b :: recent) ++ a :: rest) := hwalk
  have hb : b ∈ a :: rest := hba.2 rest hcut.earlier
  exact hfresh (List.mem_append_right recent hb)

/-! ## The row of dominators -/

/-- A dominator is on every walk that ends at the vertex. -/
theorem Dominates.mem_of_head? {walk : List Nat} (h : graph.Dominates a v)
    (hwalk : graph.Walk graph.root walk) (hhead : walk.head? = some v) : a ∈ walk := by
  cases walk with
  | nil => cases hhead
  | cons w back =>
      cases hhead
      exact h.2 back hwalk

/-- **The farther of two dominators dominates the nearer.** -/
theorem dominates_of_dominators_eq {front rest : List Nat}
    (h : graph.dominators v = front ++ a :: rest) (hb : b ∈ rest) :
    graph.Dominates b a := by
  have hav : graph.Dominates a v := by
    rw [← mem_dominators_iff, h]
    simp
  have hbv : graph.Dominates b v := by
    rw [← mem_dominators_iff, h]
    simp [hb]
  obtain ⟨route, hroute⟩ := Option.isSome_iff_exists.1 (isSome_route_iff.2 hav.reachable)
  obtain ⟨back, hends, hwalk⟩ := walk_of_route hroute
  have hnodup : route.Nodup := nodup_of_routes hroute
  -- the route is cut where the row of dominators is cut
  rw [dominators_of_route hroute] at h
  obtain ⟨left, right, hsplit, -, hright⟩ := List.filter_eq_append_iff.1 h
  obtain ⟨skipped, older, rfl, -, -, holder⟩ := List.filter_eq_cons_iff.1 hright
  have hcut : route = (left ++ skipped) ++ a :: older := by
    rw [hsplit, List.append_assoc]
  have hbOlder : b ∈ older := List.mem_of_mem_filter (holder ▸ hb)
  rw [hcut] at hwalk hnodup
  have hfresh : b ∉ left ++ skipped := by
    intro hrecent
    exact (List.nodup_append.1 hnodup).2.2 b hrecent b (List.mem_cons_of_mem a hbOlder) rfl
  constructor
  · exact hav.reachable_left
  · intro other hother
    have hhead : ((left ++ skipped) ++ a :: other).head? = some v := by
      have hroot : ((left ++ skipped) ++ a :: older).head? = some v := by
        rw [← hcut, hends]
        rfl
      simpa [List.head?_append] using hroot
    have hmem := hbv.mem_of_head? (hwalk.reroute hother) hhead
    exact (List.mem_append.1 hmem).resolve_left hfresh

theorem pairwise_dominators (graph : FlowGraph) (v : Nat) :
    (graph.dominators v).Pairwise fun a b => graph.Dominates b a := by
  rw [List.pairwise_iff_forall_sublist]
  intro a b hsublist
  obtain ⟨near, far, hsplit, ha, hb⟩ := List.cons_sublist_iff.1 hsublist
  obtain ⟨front, rest, rfl⟩ := List.append_of_mem ha
  rw [List.append_assoc, List.cons_append] at hsplit
  apply dominates_of_dominators_eq hsplit
  exact List.mem_append_right rest (List.singleton_sublist.1 hb)

/-- What dominates a dominator is the dominator itself and what is behind it in the
row. -/
theorem dominates_iff_mem_row {front rest : List Nat}
    (h : graph.dominators v = front ++ a :: rest) :
    graph.Dominates b a ↔ b ∈ a :: rest := by
  have hav : graph.Dominates a v := by
    rw [← mem_dominators_iff, h]
    simp
  constructor
  · intro hba
    have hb : b ∈ front ++ a :: rest := by
      rw [← h, mem_dominators_iff]
      exact hba.trans hav
    rcases List.mem_append.1 hb with hnear | hfar
    · -- a nearer one is dominated by `a`, so it is `a` itself
      have hpairwise := h ▸ pairwise_dominators graph v
      have hab := (List.pairwise_append.1 hpairwise).2.2 b hnear a List.mem_cons_self
      rw [hba.antisymm hab]
      exact List.mem_cons_self
    · exact hfar
  · intro hb
    rcases List.mem_cons.1 hb with rfl | hfar
    · exact .refl hav.reachable_left
    · exact dominates_of_dominators_eq h hfar

/-- **Rows of dominators end alike**: from a dominator on, the row of a vertex is
the row of the dominator. -/
theorem dominators_of_append {front rest : List Nat}
    (h : graph.dominators v = front ++ a :: rest) : graph.dominators a = a :: rest := by
  have hnodup : (front ++ a :: rest).Nodup := h ▸ nodup_dominators graph v
  have hpairwise : (front ++ a :: rest).Pairwise fun a b => graph.Dominates b a :=
    h ▸ pairwise_dominators graph v
  have hmem : ∀ b, b ∈ graph.dominators a ↔ b ∈ a :: rest := by
    intro b
    rw [mem_dominators_iff, dominates_iff_mem_row h]
  have hperm : (graph.dominators a).Perm (a :: rest) :=
    (List.perm_ext_iff_of_nodup (nodup_dominators graph a) (List.nodup_append.1 hnodup).2.1).2
      hmem
  apply hperm.eq_of_pairwise _ (pairwise_dominators graph a)
    (List.pairwise_append.1 hpairwise).2.1
  intro b c _ _ hcb hbc
  exact hbc.antisymm hcb

/-- The row of a vertex within reach begins with the vertex. -/
theorem exists_dominators_eq_cons (h : graph.Reachable v) :
    ∃ rest, graph.dominators v = v :: rest := by
  have hself : v ∈ graph.dominators v := mem_dominators_iff.2 (.refl h)
  obtain ⟨front, rest, hsplit⟩ := List.append_of_mem hself
  exact ⟨rest, dominators_of_append hsplit⟩

/-- The row of a vertex within reach ends with the root. -/
theorem getLast?_dominators (h : graph.Reachable v) :
    (graph.dominators v).getLast? = some graph.root := by
  have hroot : graph.root ∈ graph.dominators v := mem_dominators_iff.2 (root_dominates h)
  obtain ⟨front, rest, hsplit⟩ := List.append_of_mem hroot
  have hnodup : (graph.root :: rest).Nodup := by
    rw [← dominators_of_append hsplit]
    exact nodup_dominators graph graph.root
  cases rest with
  | nil =>
      rw [hsplit]
      simp
  | cons b rest =>
      -- `b` and the root would dominate each other
      have hb : graph.Dominates b graph.root :=
        dominates_of_dominators_eq hsplit List.mem_cons_self
      have heq : b = graph.root := hb.antisymm (root_dominates hb.reachable_left)
      rw [heq] at hnodup
      simp at hnodup

theorem dominators_eq_nil_iff : graph.dominators v = [] ↔ ¬graph.Reachable v := by
  constructor
  · intro hnil hreach
    obtain ⟨rest, hrow⟩ := exists_dominators_eq_cons hreach
    rw [hnil] at hrow
    cases hrow
  · intro hfar
    rw [List.eq_nil_iff_forall_not_mem]
    intro a ha
    exact hfar (mem_dominators_iff.1 ha).reachable

/-! ## The parent of a vertex -/

/-- What comes next in a row is the parent. -/
theorem immediateDominator?_of_getElem? {i : Nat}
    (h : (graph.dominators v)[i]? = some a) :
    graph.immediateDominator? a = (graph.dominators v)[i + 1]? := by
  obtain ⟨hi, rfl⟩ := List.getElem?_eq_some_iff.1 h
  have hsplit : graph.dominators v = (graph.dominators v).take i ++
      (graph.dominators v)[i] :: (graph.dominators v).drop (i + 1) := by
    rw [← List.drop_eq_getElem_cons hi, List.take_append_drop]
  unfold immediateDominator?
  rw [dominators_of_append hsplit]
  simp

/-- What comes second in a row is closer than all behind it. -/
theorem closest_of_dominators_eq {d : Nat} {rest : List Nat}
    (h : graph.dominators v = v :: d :: rest) :
    d ≠ v ∧ graph.Dominates d v ∧
      ∀ b, b ≠ v → graph.Dominates b v → graph.Dominates b d := by
  have hnodup : (v :: d :: rest).Nodup := h ▸ nodup_dominators graph v
  have hne : d ≠ v := by
    rintro rfl
    exact (List.nodup_cons.1 hnodup).1 List.mem_cons_self
  have hdv : graph.Dominates d v := by
    rw [← mem_dominators_iff, h]
    simp
  refine ⟨hne, hdv, ?_⟩
  intro b hb hbv
  have hmem : b ∈ d :: rest := by
    rw [← mem_dominators_iff, h] at hbv
    exact (List.mem_cons.1 hbv).resolve_left hb
  have hsplit : graph.dominators v = [v] ++ d :: rest := h
  exact (dominates_iff_mem_row hsplit).2 hmem

/-- **The parent is the closest dominator**: it dominates the vertex, and what else
dominates the vertex dominates the parent. -/
theorem immediateDominator?_eq_some_iff :
    graph.immediateDominator? v = some a ↔
      a ≠ v ∧ graph.Dominates a v ∧
        ∀ b, b ≠ v → graph.Dominates b v → graph.Dominates b a := by
  unfold immediateDominator?
  by_cases hreach : graph.Reachable v
  · obtain ⟨rest, hrow⟩ := exists_dominators_eq_cons hreach
    rw [hrow]
    cases rest with
    | nil =>
        constructor
        · intro hnext
          cases hnext
        · intro hparent
          have hav := hparent.2.1
          rw [← mem_dominators_iff, hrow] at hav
          exact absurd (List.mem_singleton.1 hav) hparent.1
    | cons d rest =>
        have hd := closest_of_dominators_eq hrow
        constructor
        · intro hnext
          cases hnext
          exact hd
        · intro hparent
          -- two closest dominators dominate each other
          have had : graph.Dominates a d := hd.2.2 a hparent.1 hparent.2.1
          have hda : graph.Dominates d a := hparent.2.2 d hd.1 hd.2.1
          rw [had.antisymm hda]
          rfl
  · rw [dominators_eq_nil_iff.2 hreach]
    constructor
    · intro hnext
      cases hnext
    · intro hparent
      exact absurd hparent.2.1.reachable hreach

/-- Only the root and what is out of reach have no parent. -/
theorem immediateDominator?_eq_none_iff :
    graph.immediateDominator? v = none ↔ v = graph.root ∨ ¬graph.Reachable v := by
  by_cases hreach : graph.Reachable v
  · obtain ⟨rest, hrow⟩ := exists_dominators_eq_cons hreach
    have hlast := getLast?_dominators hreach
    constructor
    · intro hnone
      unfold immediateDominator? at hnone
      rw [hrow] at hnone hlast
      cases rest with
      | nil =>
          cases hlast
          exact Or.inl rfl
      | cons d rest => cases hnone
    · intro hroot
      have hv : v = graph.root := hroot.resolve_right (not_not_intro hreach)
      by_contra hsome
      obtain ⟨d, hd⟩ := Option.ne_none_iff_exists'.1 hsome
      obtain ⟨hne, hdv, -⟩ := immediateDominator?_eq_some_iff.1 hd
      have hvd : graph.Dominates v d := hv ▸ root_dominates hdv.reachable_left
      exact hne (hdv.antisymm hvd)
  · unfold immediateDominator?
    rw [dominators_eq_nil_iff.2 hreach]
    simp [hreach]

end

end FlowGraph

/-! ## The tree of an atlas -/

namespace Atlas

section

variable {atlas : Atlas} {v : Nat}

/-- Where there is a route, there is an origin. -/
theorem origin?_of_within (h : atlas.Within v) : atlas.origin? = some atlas.flow.root := by
  obtain ⟨origin, horigin, -⟩ := exists_origin_dominates h
  rw [horigin, (origin?_eq_some_iff.1 horigin).1]
  rfl

theorem dominates_eq_true_iff_flow {a : Nat} :
    atlas.dominates a v = true ↔ atlas.flow.Dominates a v :=
  FlowGraph.dominates_iff

/-- Dominance of a vertex within reach is presence on every route there. -/
theorem dominates_of_within_iff {a : Nat} (h : atlas.Within v) :
    atlas.dominates a v = true ↔ ∀ back, atlas.Route (v :: back) → a ∈ v :: back := by
  rw [dominates_eq_true_iff]
  exact and_iff_right h

theorem immediateDominator?_eq_none_iff :
    atlas.immediateDominator? v = none ↔ atlas.origin? = some v ∨ ¬atlas.Within v := by
  rw [immediateDominator?, FlowGraph.immediateDominator?_eq_none_iff, ← within_iff_reachable]
  by_cases hwithin : atlas.Within v
  · rw [origin?_of_within hwithin, Option.some.injEq, eq_comm]
  · simp [hwithin]

/-- **Dominators form a tree.**  The dominators of a vertex within reach are listed
once each, from the vertex itself to the origin; they are what lies on every route
to the vertex, each is followed by its immediate dominator, and the later of two
dominates the earlier.  The immediate dominator of a vertex within reach, other than
the origin, dominates it and is dominated by all else that does.  A vertex out of
reach has no dominators, and only such vertices and the origin have no immediate
dominator. -/
theorem dominators_form_tree (atlas : Atlas) :
    (∀ v, atlas.Within v →
      (atlas.dominators v).Nodup ∧
      (atlas.dominators v).head? = some v ∧
      (atlas.dominators v).getLast? = atlas.origin? ∧
      (∀ a, a ∈ atlas.dominators v ↔ atlas.dominates a v = true) ∧
      (∀ a, atlas.dominates a v = true ↔
        ∀ back, atlas.Route (v :: back) → a ∈ v :: back) ∧
      (∀ i a, (atlas.dominators v)[i]? = some a →
        atlas.immediateDominator? a = (atlas.dominators v)[i + 1]?) ∧
      ((atlas.dominators v).Pairwise fun a b => atlas.dominates b a = true) ∧
      (atlas.origin? ≠ some v → ∃ d, atlas.immediateDominator? v = some d ∧
        d ≠ v ∧ atlas.dominates d v = true ∧
        ∀ a, a ≠ v → atlas.dominates a v = true → atlas.dominates a d = true)) ∧
    (∀ v, ¬atlas.Within v → atlas.dominators v = []) ∧
    ∀ v, atlas.immediateDominator? v = none ↔
      atlas.origin? = some v ∨ ¬atlas.Within v := by
  refine ⟨?_, ?_, fun v => immediateDominator?_eq_none_iff⟩
  · intro v hwithin
    have hreach : atlas.flow.Reachable v := within_iff_reachable.1 hwithin
    refine ⟨nodup_dominators atlas v, ?_, ?_, fun a => mem_dominators_iff,
      fun a => dominates_of_within_iff hwithin,
      fun i a => FlowGraph.immediateDominator?_of_getElem?, ?_, ?_⟩
    · obtain ⟨rest, hrow⟩ := FlowGraph.exists_dominators_eq_cons hreach
      rw [dominators, hrow]
      rfl
    · rw [dominators, FlowGraph.getLast?_dominators hreach, origin?_of_within hwithin]
    · apply (FlowGraph.pairwise_dominators atlas.flow v).imp
      intro a b hba
      exact dominates_eq_true_iff_flow.2 hba
    · intro horigin
      have hsome : atlas.immediateDominator? v ≠ none := by
        rw [Ne, immediateDominator?_eq_none_iff, not_or, not_not]
        exact ⟨horigin, hwithin⟩
      obtain ⟨d, hd⟩ := Option.ne_none_iff_exists'.1 hsome
      have hclosest := FlowGraph.immediateDominator?_eq_some_iff.1 hd
      simp only [dominates_eq_true_iff_flow]
      exact ⟨d, hd, hclosest⟩
  · intro v hfar
    rw [within_iff_reachable] at hfar
    exact FlowGraph.dominators_eq_nil_iff.2 hfar

end

/-- A run that begins behind the place where both ways meet. -/
def lateStart : Trace :=
  [.effect 5 "resume", arrival]

/-- The arrival can also be come to from the late start.  No route from the origin
does so, hence its dominators are those of the two journeys, and the late start has
none. -/
theorem dominators_form_tree_late :
    ∃ atlas, (empty {}).replay (journeys ++ [.run lateStart]) = .ok atlas ∧
      atlas.Within 4 ∧ atlas.predecessors 4 = [3, 6] ∧
      atlas.dominators 4 = [4, 3, 1, 0] ∧ atlas.immediateDominator? 3 = some 1 ∧
      (∃ d, atlas.immediateDominator? 4 = some d ∧ atlas.dominates 1 d = true) ∧
      ¬atlas.Within 6 ∧ atlas.dominators 6 = [] ∧ atlas.immediateDominator? 6 = none := by
  have hvalue : ((empty {}).replay (journeys ++ [.run lateStart])).map (fun atlas =>
      (atlas.origin?, atlas.predecessors 4, atlas.dominators 4, atlas.dominates 1 4,
        atlas.dominates 6 6)) =
        .ok (some 0, [3, 6], [4, 3, 1, 0], true, false) := by
    cbv
  obtain ⟨atlas, h, hvalue⟩ := exists_of_map_eq_ok hvalue
  simp only [Prod.mk.injEq] at hvalue
  obtain ⟨horigin, hpredecessors, hrow, hready, hlate⟩ := hvalue
  have hwithin : atlas.Within 4 := (dominates_eq_true_iff.1 hready).1
  have hfar : ¬atlas.Within 6 := by
    intro hnear
    rw [dominates_self hnear] at hlate
    cases hlate
  obtain ⟨hnear, hnone, hparent⟩ := dominators_form_tree atlas
  obtain ⟨-, -, -, -, -, hnext, -, hclosest⟩ := hnear 4 hwithin
  obtain ⟨d, hd, -, -, hrest⟩ := hclosest (by rw [horigin]; decide)
  refine ⟨atlas, h, hwithin, hpredecessors, hrow, ?_, ?_, hfar, hnone 6 hfar,
    (hparent 6).2 (Or.inr hfar)⟩
  · rw [hnext 1 3 (by rw [hrow]; rfl), hrow]
    rfl
  · exact ⟨d, hd, hrest 1 (by decide) hready⟩

end Atlas

end Concolic
