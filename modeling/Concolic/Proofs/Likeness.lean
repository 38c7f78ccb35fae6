import Concolic.Proofs.Legibility
import Concolic.Proofs.Provenance
import Mathlib

/-!
# What a drawing says of the atlas

A drawing shows an atlas in part.  It shows how many vertices there are, what each
observed, whether it is a decision and whether it is closed, the origin, and the edges.
The rank of a decision is written on the edges into it, so it is not shown where no edge
leads.  Nothing else goes into a drawing.  Locations and instructions do not, and neither
do the paths on record.  Since the drawing can be read back from its text, the text says of
the atlas exactly this much.

## Main results

* `Atlas.Alike.of_drawing_eq`, `Atlas.Alike.drawing_eq`: what drawings have in common.
* `Atlas.dotText_eq_iff_alike`: what a text says of the atlas.
-/

namespace Concolic

namespace Atlas

section

variable {settings others : Settings} {events history : List Event}
variable {atlas other : Atlas} {style : DrawingStyle}

/-! ## What is drawn -/

/-- What is shown of the vertex at `v`. -/
def label? (atlas : Atlas) (v : Nat) : Option String :=
  (atlas.clause? v).map fun clause => clause.predicate.text

theorem exists_label?_iff {v : Nat} :
    (∃ label, atlas.label? v = some label) ↔ v < atlas.size := by
  constructor
  · intro h
    rcases h with ⟨label, hlabel⟩
    obtain ⟨clause, hclause, -⟩ := Option.map_eq_some_iff.1 hlabel
    exact lt_size_of_clause? hclause
  · intro hv
    obtain ⟨clause, hclause⟩ := exists_clause? hv
    exact ⟨_, congrArg (Option.map _) hclause⟩

/-- How the vertex at `v` is drawn, if it is shown with the given label. -/
def shownAs (atlas : Atlas) (style : DrawingStyle) (v : Nat) (label : String) : Statement :=
  .vertex v (if atlas.isDecision v then style.decisionShape else style.effectShape)
    (if atlas.isDecision v && atlas.isClosed v then some style.closedFill else none) label

theorem vertexStatement_eq_shownAs {v : Nat} {clause : Clause}
    (h : atlas.clause? v = some clause) :
    atlas.vertexStatement style v clause =
      atlas.shownAs style v clause.predicate.text := by
  rw [vertexStatement, shownAs, isDecision_of_clause? h]
  cases clause.isDecision <;> rfl

theorem vertexStatement_ne_origin {u v : Nat} {clause : Clause} :
    atlas.vertexStatement style v clause ≠ .origin u := by
  unfold vertexStatement
  split <;> exact Statement.noConfusion

theorem vertexStatement_ne_edge {v tail head : Nat} {clause : Clause} {rank : Option Nat} :
    atlas.vertexStatement style v clause ≠ .edge tail head rank := by
  unfold vertexStatement
  split <;> exact Statement.noConfusion

/-- The vertex that is drawn at a place is the one of that number. -/
theorem getElem?_drawn_vertices (atlas : Atlas) (style : DrawingStyle) (v : Nat) :
    ((atlas.ids.zip atlas.clauses.toList).map
        fun entry => atlas.vertexStatement style entry.1 entry.2)[v]? =
      (atlas.label? v).map (atlas.shownAs style v) := by
  rw [List.getElem?_map, label?, Option.map_map]
  cases hclause : atlas.clause? v with
  | none =>
      have hlength : atlas.clauses.toList.length ≤ v := List.getElem?_eq_none_iff.1 hclause
      have hnone : (atlas.ids.zip atlas.clauses.toList)[v]? = none := by
        rw [List.getElem?_eq_none_iff, List.length_zip]
        exact (Nat.min_le_right _ _).trans hlength
      rw [hnone, Option.map_none, Option.map_none]
  | some clause =>
      have hv : atlas.ids[v]? = some v := List.getElem?_range (lt_size_of_clause? hclause)
      have hsome : (atlas.ids.zip atlas.clauses.toList)[v]? = some (v, clause) :=
        List.getElem?_zip_eq_some.2 ⟨hv, hclause⟩
      rw [hsome, Option.map_some, Option.map_some, vertexStatement_eq_shownAs hclause,
        Function.comp_apply]

theorem vertex_mem_drawing_iff {v : Nat} {shape label : String} {fill : Option String} :
    .vertex v shape fill label ∈ atlas.drawing style ↔
      atlas.label? v = some label ∧ atlas.shownAs style v label = .vertex v shape fill label := by
  have hmem : .vertex v shape fill label ∈ atlas.drawing style ↔
      .vertex v shape fill label ∈ (atlas.ids.zip atlas.clauses.toList).map
        fun entry => atlas.vertexStatement style entry.1 entry.2 := by
    simp [drawing]
  rw [hmem, List.mem_iff_getElem?]
  simp only [getElem?_drawn_vertices, Option.map_eq_some_iff]
  constructor
  · intro h
    rcases h with ⟨w, name, hname, hshown⟩
    cases hshown
    exact ⟨hname, rfl⟩
  · intro h
    exact ⟨v, label, h⟩

/-- A label is drawn with its vertex. -/
theorem label?_eq_some_iff_drawn {v : Nat} {label : String} :
    atlas.label? v = some label ↔
      ∃ shape fill, .vertex v shape fill label ∈ atlas.drawing style := by
  simp only [vertex_mem_drawing_iff]
  constructor
  · intro h
    exact ⟨_, _, h, rfl⟩
  · intro h
    rcases h with ⟨_, _, h, -⟩
    exact h

/-- A decision is told by its shape. -/
theorem isDecision_iff_drawn (hstyle : style.Legible) {v : Nat} :
    atlas.isDecision v = true ↔
      ∃ fill label, .vertex v style.decisionShape fill label ∈ atlas.drawing style := by
  simp only [vertex_mem_drawing_iff, shownAs, Statement.vertex.injEq]
  constructor
  · intro h
    obtain ⟨clause, hclause, -⟩ := exists_clause?_of_isDecision h
    exact ⟨_, _, congrArg (Option.map _) hclause, trivial, if_pos h, rfl, trivial⟩
  · intro h
    rcases h with ⟨fill, label, -, -, hshape, -⟩
    by_contra hkind
    rw [if_neg hkind] at hshape
    exact hstyle.shapes hshape.symm

/-- A closed decision is told by its colour. -/
theorem isClosed_iff_drawn (h : (empty settings).replay events = .ok atlas) {v : Nat} :
    atlas.isClosed v = true ↔
      ∃ shape label, .vertex v shape (some style.closedFill) label ∈ atlas.drawing style := by
  simp only [vertex_mem_drawing_iff, shownAs, Statement.vertex.injEq]
  constructor
  · intro hclosed
    have hkind := isDecision_of_mem_closed h (isClosed_iff.1 hclosed)
    obtain ⟨clause, hclause, -⟩ := exists_clause?_of_isDecision hkind
    refine ⟨_, _, congrArg (Option.map _) hclause, trivial, rfl, ?_, trivial⟩
    rw [hkind, hclosed]
    rfl
  · intro hdrawn
    rcases hdrawn with ⟨shape, label, -, -, -, hfill, -⟩
    split at hfill
    · next hboth => exact (Bool.and_eq_true_iff.1 hboth).2
    · cases hfill

theorem origin?_eq_some_iff_drawn {v : Nat} :
    atlas.origin? = some v ↔ .origin v ∈ atlas.drawing style := by
  simp [drawing, vertexStatement_ne_origin]

theorem edge_mem_drawing_iff (hstyle : style.Legible) {u v : Nat} {rank : Option Nat} :
    .edge u v rank ∈ atlas.drawing style ↔
      (u, v) ∈ atlas.edgeList ∧ atlas.rank? v = rank := by
  simp [drawing, vertexStatement_ne_edge, hstyle.showRanks, rank?]

theorem mem_edgeList_iff (h : (empty settings).replay events = .ok atlas) {u v : Nat} :
    (u, v) ∈ atlas.edgeList ↔ (u, v) ∈ atlas.edges := by
  rw [mem_edgeList, ← mem_predecessors_iff h, mem_predecessors, and_self_left]
  refine and_iff_right_of_imp ?_
  intro hedge
  obtain ⟨first, -, -, hu, -⟩ := (mem_edges_iff h).1 hedge
  exact lt_size_of_clause? hu

theorem mem_edges_iff_drawn (hstyle : style.Legible)
    (h : (empty settings).replay events = .ok atlas) {u v : Nat} :
    (u, v) ∈ atlas.edges ↔ ∃ rank, .edge u v rank ∈ atlas.drawing style := by
  simp only [edge_mem_drawing_iff hstyle, mem_edgeList_iff h, exists_and_left,
    exists_eq', and_true]

theorem predecessors_ne_nil_iff (h : (empty settings).replay events = .ok atlas) {v : Nat} :
    atlas.predecessors v ≠ [] ↔ ∃ u, (u, v) ∈ atlas.edges := by
  rw [Ne, List.eq_nil_iff_forall_not_mem, not_forall_not]
  refine exists_congr fun u => ?_
  rw [← mem_edgeList_iff h, mem_edgeList, ← mem_predecessors_iff h]
  exact (and_iff_right_of_imp fun hu => (mem_predecessors.1 hu).1).symm

/-- A rank is told by any edge into its decision. -/
theorem rank?_eq_iff_drawn (hstyle : style.Legible)
    (h : (empty settings).replay events = .ok atlas) {v : Nat} {rank : Option Nat}
    (hbefore : ∃ u, (u, v) ∈ atlas.edges) :
    atlas.rank? v = rank ↔ ∃ u, .edge u v rank ∈ atlas.drawing style := by
  simp only [edge_mem_drawing_iff hstyle, mem_edgeList_iff h, exists_and_right]
  exact (and_iff_right hbefore).symm

/-! ## Atlases drawn alike -/

/-- Two atlases that a reader of their drawings cannot tell apart. -/
structure Alike (atlas other : Atlas) : Prop where
  size : atlas.size = other.size
  label? : ∀ v, atlas.label? v = other.label? v
  isDecision : ∀ v, atlas.isDecision v = other.isDecision v
  isClosed : ∀ v, atlas.isClosed v = other.isClosed v
  origin? : atlas.origin? = other.origin?
  edges : ∀ u v, (u, v) ∈ atlas.edges ↔ (u, v) ∈ other.edges
  /-- Nothing leads into other decisions, so there is no place to write their ranks. -/
  rank? : ∀ v, atlas.isDecision v = true → atlas.predecessors v ≠ [] →
    atlas.rank? v = other.rank? v

/-- Only decisions have ranks. -/
theorem rank?_eq_none {v : Nat} (h : atlas.isDecision v = false) : atlas.rank? v = none := by
  rw [rank?, List.lookup_eq_none_iff]
  intro entry hentry
  have hkind := (mem_ranking_iff.1 hentry).1
  rw [bne_iff_ne]
  rintro rfl
  rw [hkind] at h
  cases h

/-- Everything can be read off a drawing. -/
theorem Alike.of_drawing_eq (hstyle : style.Legible)
    (h : (empty settings).replay events = .ok atlas)
    (hother : (empty others).replay history = .ok other)
    (heq : atlas.drawing style = other.drawing style) : Alike atlas other := by
  have hlabel : ∀ v, atlas.label? v = other.label? v := by
    intro v
    refine Option.ext fun label => ?_
    rw [label?_eq_some_iff_drawn, heq, ← label?_eq_some_iff_drawn]
  have hedges : ∀ u v, (u, v) ∈ atlas.edges ↔ (u, v) ∈ other.edges := by
    intro u v
    rw [mem_edges_iff_drawn hstyle h, heq, ← mem_edges_iff_drawn hstyle hother]
  refine
    { size := ?_
      label? := hlabel
      isDecision := ?_
      isClosed := ?_
      origin? := ?_
      edges := hedges
      rank? := ?_ }
  · refine eq_of_forall_lt_iff fun v => ?_
    rw [← exists_label?_iff, hlabel, exists_label?_iff]
  · intro v
    rw [Bool.eq_iff_iff, isDecision_iff_drawn hstyle, heq, ← isDecision_iff_drawn hstyle]
  · intro v
    rw [Bool.eq_iff_iff, isClosed_iff_drawn h, heq, ← isClosed_iff_drawn hother]
  · refine Option.ext fun v => ?_
    rw [origin?_eq_some_iff_drawn, heq, ← origin?_eq_some_iff_drawn]
  · intro v _ hbefore
    rw [predecessors_ne_nil_iff h] at hbefore
    have hbefore' : ∃ u, (u, v) ∈ other.edges := by
      simpa only [hedges] using hbefore
    rw [rank?_eq_iff_drawn hstyle h hbefore, heq, ← rank?_eq_iff_drawn hstyle hother hbefore']

/-- Nothing else is drawn. -/
theorem Alike.drawing_eq (halike : Alike atlas other)
    (h : (empty settings).replay events = .ok atlas) :
    atlas.drawing style = other.drawing style := by
  have hshown : ∀ v, atlas.shownAs style v = other.shownAs style v := by
    intro v
    funext label
    rw [shownAs, shownAs, halike.isDecision, halike.isClosed]
  have hedges : atlas.edgeList = other.edgeList := by
    rw [edgeList, edgeList, ids, ids, halike.size]
    refine List.flatMap_congr fun u _ => congrArg (List.map _) ?_
    refine eq_of_pairwise_lt (pairwise_ascending _ _) (pairwise_ascending _ _) fun v => ?_
    rw [mem_successors, mem_successors, halike.size, halike.edges]
  rw [drawing, drawing, halike.origin?, hedges]
  congr 1
  · congr 1
    refine List.ext_getElem? fun v => ?_
    rw [getElem?_drawn_vertices, getElem?_drawn_vertices, halike.label?, hshown]
  · refine List.map_congr_left ?_
    rintro ⟨u, v⟩ hedge
    have hrank : atlas.rank? v = other.rank? v := by
      cases hkind : atlas.isDecision v with
      | true =>
          rw [← hedges, mem_edgeList_iff h] at hedge
          exact halike.rank? v hkind ((predecessors_ne_nil_iff h).2 ⟨u, hedge⟩)
      | false => rw [rank?_eq_none hkind, rank?_eq_none (halike.isDecision _ ▸ hkind)]
    cases style.showRanks with
    | true => exact congrArg _ hrank
    | false => rfl

/-- **What a text says of the atlas.**  Two atlases have the same text exactly if they
have the same vertices with the same labels, kinds and colours, the same origin, the same
edges, and the same ranks wherever an edge leads, whatever the labels are made of. -/
theorem dotText_eq_iff_alike (h : (empty settings).replay events = .ok atlas)
    (hother : (empty others).replay history = .ok other) :
    atlas.dotText = other.dotText ↔ Alike atlas other := by
  constructor
  · intro htext
    exact .of_drawing_eq DrawingStyle.legible_default h hother
      (drawing_eq_of_dotText_eq DrawingStyle.legible_default htext)
  · intro halike
    rw [dotText, dotText, halike.drawing_eq h]

/-- A comparison after an effect. -/
def comparedRuns : List Event :=
  [.run [.effect 0 "n", .jump 1 (.equal (.var "a") (.var "b"))]]

/-- The same with other clauses, which happen to be shown in the same way. -/
def retoldRuns : List Event :=
  [.run [.effect 5 "n", .jump 1 (.remark "a == b")]]

/-- One effect, with words that pretend to end its label and to go on with a second
vertex. -/
def forgedRuns : List Event :=
  [.run [.effect 0 "n\"];\n1 [shape=ellipse, label=\"[P] a == b"]]

/-- What is shown is all that counts, and words in a label add no vertex. -/
theorem dotText_eq_iff_alike_forged :
    ∃ atlas retold forged, (empty {}).replay comparedRuns = .ok atlas ∧
      (empty {}).replay retoldRuns = .ok retold ∧ (empty {}).replay forgedRuns = .ok forged ∧
      Alike atlas retold ∧ atlas.clauses ≠ retold.clauses ∧ atlas.dotText ≠ forged.dotText := by
  have hcompared : ((empty {}).replay comparedRuns).map (fun atlas =>
      (atlas.drawing {}, atlas.clause? 0, atlas.size)) =
        .ok ([.vertex 0 "box" none "[E] n", .vertex 1 "ellipse" none "[P] a == b", .origin 0,
          .edge 0 1 (some 1)], some (.effect 0 "n"), 2) := by
    rfl
  have hretold : ((empty {}).replay retoldRuns).map (fun atlas =>
      (atlas.drawing {}, atlas.clause? 0)) =
        .ok ([.vertex 0 "box" none "[E] n", .vertex 1 "ellipse" none "[P] a == b", .origin 0,
          .edge 0 1 (some 1)], some (.effect 5 "n")) := by
    rfl
  have hforged : ((empty {}).replay forgedRuns).map size = .ok 1 := by
    rfl
  obtain ⟨atlas, h, hcompared⟩ := exists_of_map_eq_ok hcompared
  obtain ⟨retold, hretold', hretold⟩ := exists_of_map_eq_ok hretold
  obtain ⟨forged, hforged', hforged⟩ := exists_of_map_eq_ok hforged
  simp only [Prod.mk.injEq] at hcompared hretold
  rcases hcompared with ⟨hdrawing, hclause, hsize⟩
  rcases hretold with ⟨hdrawing', hclause'⟩
  refine ⟨atlas, retold, forged, h, hretold', hforged', ?_, ?_, ?_⟩
  · refine (dotText_eq_iff_alike h hretold').1 ?_
    rw [dotText, dotText, hdrawing, hdrawing']
  · intro heq
    rw [clause?, heq, ← clause?, hclause'] at hclause
    cases hclause
  · intro htext
    have hsame := ((dotText_eq_iff_alike h hforged').1 htext).size
    rw [hsize, hforged] at hsame
    cases hsame

end

end Atlas

end Concolic
