import Concolic.FlowGraph.Search
import Concolic.Proofs.Walks

/-!
# What a search finds

A search that may not enter the vertices that are shut finds exactly those
vertices to which a walk leads through open vertices only.  Two facts about a
search in progress carry this.  Every route it has kept is such a walk; and an
open vertex after one that was found is found too or waits on the stack.  With
an empty stack the second fact says that the found vertices are closed under
steps to open vertices, so that no walk can leave them.

## Main results

* `openWalk_of_routes`: a kept route is a walk through open vertices.
* `isSome_routes_iff`: a vertex is found exactly if an open walk ends there.
* `nodup_of_routes`: a kept route visits no vertex twice.
-/

namespace Concolic

namespace FlowGraph

/-- A walk from the root through vertices that are not shut. -/
def OpenWalk (graph : FlowGraph) (shut : Nat → Bool) (walk : List Nat) : Prop :=
  graph.Walk graph.root walk ∧ ∀ u ∈ walk, shut u = false

theorem OpenWalk.step {graph : FlowGraph} {shut : Nat → Bool} {u v : Nat}
    {back : List Nat} (h : graph.OpenWalk shut (u :: back))
    (hv : v ∈ graph.successors u) (hopen : shut v = false) :
    graph.OpenWalk shut (v :: u :: back) := by
  refine ⟨.step h.1 hv, ?_⟩
  intro w hw
  rcases List.mem_cons.1 hw with rfl | hw
  · exact hopen
  · exact h.2 w hw

/-- `v` has a route already, or it waits on the stack. -/
def Known (stack : List (Nat × List Nat)) (routes : Routes) (v : Nat) : Prop :=
  routes[v]?.join.isSome ∨ v ∈ stack.map Prod.fst

/-- What holds at every moment of a search. -/
structure Searching (graph : FlowGraph) (shut : Nat → Bool)
    (stack : List (Nat × List Nat)) (routes : Routes) : Prop where
  size : routes.size = graph.size
  found : ∀ v route, routes[v]?.join = some route →
    ∃ back, route = v :: back ∧ graph.OpenWalk shut route
  pending : ∀ v back, (v, back) ∈ stack → v < graph.size → shut v = false →
    graph.OpenWalk shut (v :: back)
  begun : graph.root < graph.size → shut graph.root = false →
    Known stack routes graph.root
  continued : ∀ u v, routes[u]?.join.isSome → v ∈ graph.successors u →
    shut v = false → Known stack routes v

section

variable {graph : FlowGraph} {shut : Nat → Bool}

theorem Searching.start :
    Searching graph shut [(graph.root, [])] (Array.replicate graph.size none) := by
  refine
    { size := Array.size_replicate
      found := ?_
      pending := ?_
      begun := fun _ _ => Or.inr (by simp)
      continued := ?_ }
  · intro v route h
    rw [join_getElem?_replicate_none] at h
    cases h
  · intro v back hmem hv hopen
    obtain ⟨rfl, rfl⟩ := Prod.mk.inj (List.mem_singleton.1 hmem)
    refine ⟨.stay hv, ?_⟩
    intro u hu
    rw [List.mem_singleton.1 hu]
    exact hopen
  · intro u v hu
    rw [join_getElem?_replicate_none] at hu
    cases hu

/-- Entering the vertex on top of the stack. -/
theorem Searching.enter {v : Nat} {back : List Nat} {rest : List (Nat × List Nat)}
    {routes : Routes} (h : Searching graph shut ((v, back) :: rest) routes)
    (hnew : routes[v]? = some none) (hopen : shut v = false) :
    Searching graph shut
      ((graph.successors v).map (fun w => (w, v :: back)) ++ rest)
      (routes.setIfInBounds v (some (v :: back))) := by
  obtain ⟨hv, -⟩ := Array.getElem?_eq_some_iff.1 hnew
  have hread := join_getElem?_setIfInBounds routes hv (v :: back)
  have hwalk : graph.OpenWalk shut (v :: back) :=
    h.pending v back (by simp) (h.size ▸ hv) hopen
  -- whatever was known stays known: only `v` left the stack, and it is found
  have hknown : ∀ w, Known ((v, back) :: rest) routes w →
      Known ((graph.successors v).map (fun w => (w, v :: back)) ++ rest)
        (routes.setIfInBounds v (some (v :: back))) w := by
    intro w hw
    by_cases hwv : w = v
    · exact Or.inl (by rw [hread, if_pos hwv]; rfl)
    · rcases hw with hfound | hstack
      · exact Or.inl (by rwa [hread, if_neg hwv])
      · refine Or.inr ?_
        rw [List.map_append, List.mem_append]
        exact Or.inr ((List.mem_cons.1 hstack).resolve_left hwv)
  refine
    { size := by rw [Array.size_setIfInBounds, h.size]
      found := ?_
      pending := ?_
      begun := fun hroot hshut => hknown _ (h.begun hroot hshut)
      continued := ?_ }
  · intro w route hw
    rw [hread] at hw
    by_cases hwv : w = v
    · rw [if_pos hwv] at hw
      cases hw
      exact ⟨back, by rw [hwv], hwalk⟩
    · rw [if_neg hwv] at hw
      exact h.found w route hw
  · intro w trail hmem hw hshut
    rcases List.mem_append.1 hmem with hmem | hmem
    · obtain ⟨x, hx, heq⟩ := List.mem_map.1 hmem
      cases heq
      exact hwalk.step hx hshut
    · exact h.pending w trail (List.mem_cons_of_mem _ hmem) hw hshut
  · intro u w hu hw hshut
    rw [hread] at hu
    by_cases huv : u = v
    · subst huv
      refine Or.inr ?_
      rw [List.map_append, List.mem_append]
      exact Or.inl (List.mem_map.2 ⟨(w, u :: back), List.mem_map.2 ⟨w, hw, rfl⟩, rfl⟩)
    · rw [if_neg huv] at hu
      exact hknown w (h.continued u w hu hw hshut)

/-- Passing over the vertex on top of the stack. -/
theorem Searching.pass {v : Nat} {back : List Nat} {rest : List (Nat × List Nat)}
    {routes : Routes} (h : Searching graph shut ((v, back) :: rest) routes)
    (hpass : ¬(routes[v]? = some none ∧ shut v = false)) :
    Searching graph shut rest routes := by
  -- an open vertex that is passed over has a route
  have hknown : ∀ w, w < graph.size → shut w = false →
      Known ((v, back) :: rest) routes w → Known rest routes w := by
    intro w hw hshut hwknown
    rcases hwknown with hfound | hstack
    · exact Or.inl hfound
    · rcases List.mem_cons.1 hstack with rfl | hstack
      · have hlt : w < routes.size := h.size ▸ hw
        rw [Array.getElem?_eq_getElem hlt] at hpass
        refine Or.inl ?_
        rw [Array.getElem?_eq_getElem hlt]
        cases hentry : routes[w] with
        | none => exact absurd ⟨by rw [hentry], hshut⟩ hpass
        | some route => rfl
      · exact Or.inr hstack
  exact
    { size := h.size
      found := h.found
      pending := fun w trail hmem => h.pending w trail (List.mem_cons_of_mem _ hmem)
      begun := fun hroot hshut => hknown _ hroot hshut (h.begun hroot hshut)
      continued := fun u w hu hw hshut =>
        hknown w (lt_size_of_mem_successors hw) hshut (h.continued u w hu hw hshut) }

/-- What entering and passing over keep, a whole search keeps. -/
theorem explore_induction {P : List (Nat × List Nat) → Routes → Prop}
    (henter : ∀ v back rest routes, routes[v]? = some none → shut v = false →
      P ((v, back) :: rest) routes →
        P ((graph.successors v).map (fun w => (w, v :: back)) ++ rest)
          (routes.setIfInBounds v (some (v :: back))))
    (hpass : ∀ v back rest routes, ¬(routes[v]? = some none ∧ shut v = false) →
      P ((v, back) :: rest) routes → P rest routes)
    (stack : List (Nat × List Nat)) (routes : Routes) (h : P stack routes) :
    P [] (graph.explore shut stack routes) := by
  induction stack, routes using FlowGraph.explore.induct graph shut with
  | case1 routes =>
      rw [FlowGraph.explore]
      exact h
  | case2 routes v back rest hopen ih =>
      rw [FlowGraph.explore, if_pos hopen]
      exact ih (henter v back rest routes hopen.1 hopen.2 h)
  | case3 routes v back rest hshut ih =>
      rw [FlowGraph.explore, if_neg hshut]
      exact ih (hpass v back rest routes hshut h)

theorem searching_routes (graph : FlowGraph) (shut : Nat → Bool) :
    Searching graph shut [] (graph.routes shut) :=
  explore_induction (fun _ _ _ _ hnew hopen h => h.enter hnew hopen)
    (fun _ _ _ _ hpass h => h.pass hpass) _ _ Searching.start

/-! ## Soundness and completeness -/

theorem openWalk_of_routes {v : Nat} {route : List Nat}
    (h : (graph.routes shut)[v]?.join = some route) :
    ∃ back, route = v :: back ∧ graph.OpenWalk shut route :=
  (searching_routes graph shut).found v route h

/-- With nothing left on the stack, to be known is to be found. -/
private theorem found_of_known {routes : Routes} {v : Nat} (h : Known [] routes v) :
    routes[v]?.join.isSome :=
  h.resolve_right List.not_mem_nil

theorem isSome_routes_of_openWalk {walk : List Nat} (h : graph.OpenWalk shut walk) :
    ∀ v back, walk = v :: back → (graph.routes shut)[v]?.join.isSome := by
  have hdone := searching_routes graph shut
  rcases h with ⟨hwalk, hopen⟩
  induction hwalk with
  | stay hroot =>
      intro v back heq
      cases heq
      exact found_of_known (hdone.begun hroot (hopen _ (by simp)))
  | @step u w back hwalk hw ih =>
      intro v trail heq
      cases heq
      have hu : (graph.routes shut)[u]?.join.isSome :=
        ih (fun x hx => hopen x (List.mem_cons_of_mem _ hx)) u back rfl
      exact found_of_known (hdone.continued u w hu hw (hopen w (by simp)))

theorem isSome_routes_iff {v : Nat} :
    (graph.routes shut)[v]?.join.isSome ↔ ∃ back, graph.OpenWalk shut (v :: back) := by
  constructor
  · intro h
    obtain ⟨route, hroute⟩ := Option.isSome_iff_exists.1 h
    obtain ⟨back, rfl, hopen⟩ := openWalk_of_routes hroute
    exact ⟨back, hopen⟩
  · intro hwalk
    rcases hwalk with ⟨back, hopen⟩
    exact isSome_routes_of_openWalk hopen v back rfl

/-! ## No vertex twice -/

/-- What holds of repetitions at every moment of a search: there are none in the
routes, and a vertex of a walk that waits on the stack was found already. -/
structure Unrepeated (stack : List (Nat × List Nat)) (routes : Routes) : Prop where
  found : ∀ (v : Nat) (route : List Nat), routes[v]?.join = some route → route.Nodup
  pending : ∀ (v : Nat) (back : List Nat), (v, back) ∈ stack →
    back.Nodup ∧ ∀ u ∈ back, routes[u]?.join.isSome

theorem Unrepeated.start :
    Unrepeated [(graph.root, [])] (Array.replicate graph.size none) := by
  refine { found := ?_, pending := ?_ }
  · intro v route h
    rw [join_getElem?_replicate_none] at h
    cases h
  · intro v back hmem
    obtain ⟨-, rfl⟩ := Prod.mk.inj (List.mem_singleton.1 hmem)
    exact ⟨List.nodup_nil, fun u hu => absurd hu List.not_mem_nil⟩

/-- The vertex to be entered has no route, so it is not on the walk that leads
there. -/
theorem Unrepeated.enter {v : Nat} {back : List Nat} {rest : List (Nat × List Nat)}
    {routes : Routes} (h : Unrepeated ((v, back) :: rest) routes)
    (hnew : routes[v]? = some none) :
    Unrepeated ((graph.successors v).map (fun w => (w, v :: back)) ++ rest)
      (routes.setIfInBounds v (some (v :: back))) := by
  obtain ⟨hv, -⟩ := Array.getElem?_eq_some_iff.1 hnew
  have hread := join_getElem?_setIfInBounds routes hv (v :: back)
  obtain ⟨hback, hfound⟩ := h.pending v back List.mem_cons_self
  have hfresh : v ∉ back := by
    intro hmem
    have hsome := hfound v hmem
    rw [hnew] at hsome
    cases hsome
  have hwalk : (v :: back).Nodup := List.nodup_cons.2 ⟨hfresh, hback⟩
  have hkeeps : ∀ u : Nat, routes[u]?.join.isSome →
      (routes.setIfInBounds v (some (v :: back)))[u]?.join.isSome := by
    intro u hu
    rw [hread]
    split
    · rfl
    · exact hu
  refine { found := ?_, pending := ?_ }
  · intro w route hw
    rw [hread] at hw
    split at hw
    · cases hw
      exact hwalk
    · exact h.found w route hw
  · intro w trail hmem
    rcases List.mem_append.1 hmem with hnext | hrest
    · obtain ⟨x, -, heq⟩ := List.mem_map.1 hnext
      cases heq
      refine ⟨hwalk, ?_⟩
      intro u hu
      rcases List.mem_cons.1 hu with rfl | hu
      · rw [hread, if_pos rfl]
        rfl
      · exact hkeeps u (hfound u hu)
    · obtain ⟨htrail, hold⟩ := h.pending w trail (List.mem_cons_of_mem _ hrest)
      exact ⟨htrail, fun u hu => hkeeps u (hold u hu)⟩

/-- **No route visits a vertex twice.** -/
theorem nodup_of_routes {v : Nat} {route : List Nat}
    (h : (graph.routes shut)[v]?.join = some route) : route.Nodup := by
  have hdone : Unrepeated [] (graph.routes shut) := by
    refine explore_induction (fun _ _ _ _ hnew _ h => h.enter hnew) ?_ _ _ Unrepeated.start
    intro v back rest routes _ h
    exact
      { found := h.found
        pending := fun w trail hmem => h.pending w trail (List.mem_cons_of_mem _ hmem) }
  exact hdone.found v route h

end

end FlowGraph

end Concolic
