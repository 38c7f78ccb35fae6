import Concolic.Atlas.Drawing
import Mathlib

/-!
# Drawings can be read back

The text between the quotes of a label is arbitrary.  It may hold quotes, backslashes
and line breaks, and whole lines that look like statements.  Still a reader who goes
through a drawing from its beginning is never misled.  A number ends where its digits
do, a word at the next comma, and a label at the first quote that has no backslash of
its own in front.  So each statement can be told from the text, whatever follows it.

## Main results

* `readLabel_escape`: where a label ends.
* `Statement.text_append_inj`: a statement can be told from what follows it.
* `Atlas.drawing_eq_of_dotText_eq`: a text is that of one drawing.
-/

namespace Concolic

/-! ## Words, numbers and labels -/

/-- Two equal texts agree up to the first separator, if what comes before it holds
neither separator. -/
theorem append_separator_inj {α : Type} {xs ys rest other : List α} {a b : α}
    (ha : a ∉ ys) (hb : b ∉ xs) (h : xs ++ a :: rest = ys ++ b :: other) :
    xs = ys ∧ a = b ∧ rest = other := by
  induction xs generalizing ys with
  | nil =>
      cases ys with
      | nil => exact ⟨rfl, List.cons.inj h⟩
      | cons y ys =>
          obtain ⟨rfl, -⟩ := List.cons.inj h
          exact absurd List.mem_cons_self ha
  | cons x xs ih =>
      cases ys with
      | nil =>
          obtain ⟨rfl, -⟩ := List.cons.inj h
          exact absurd List.mem_cons_self hb
      | cons y ys =>
          obtain ⟨rfl, hrest⟩ := List.cons.inj h
          obtain ⟨rfl, hsame⟩ := ih (mt (List.mem_cons_of_mem x) ha)
            (mt (List.mem_cons_of_mem x) hb) hrest
          exact ⟨rfl, hsame⟩

theorem not_mem_toDigits {c : Char} (hc : c.isDigit = false) (n : Nat) :
    c ∉ Nat.toDigits 10 n := by
  intro hmem
  rw [Nat.isDigit_of_mem_toDigits (by decide) (by decide) hmem] at hc
  cases hc

/-- A number ends where its digits do. -/
theorem toDigits_append_inj {n m : Nat} {a b : Char} {rest other : List Char}
    (ha : a.isDigit = false) (hb : b.isDigit = false)
    (h : Nat.toDigits 10 n ++ a :: rest = Nat.toDigits 10 m ++ b :: other) :
    n = m ∧ a = b ∧ rest = other := by
  obtain ⟨hdigits, hsame⟩ :=
    append_separator_inj (not_mem_toDigits ha m) (not_mem_toDigits hb n) h
  rw [← Nat.toList_repr, ← Nat.toList_repr, String.toList_inj, Nat.repr_inj] at hdigits
  exact ⟨hdigits, hsame⟩

/-- A text that begins with a number does not begin with anything else. -/
theorem toDigits_append_ne_cons {n : Nat} {a b : Char} {rest other : List Char}
    (hb : b.isDigit = false) (hne : a ≠ b) : Nat.toDigits 10 n ++ a :: rest ≠ b :: other := by
  intro h
  have hsame : Nat.toDigits 10 n ++ a :: rest = [] ++ b :: other := h
  exact hne (append_separator_inj List.not_mem_nil (not_mem_toDigits hb n) hsame).2.1

/-- The label at the beginning of a text, up to the quote that ends it, and what stands
after that quote. -/
def readLabel : List Char → Option (List Char × List Char)
  | [] => none
  | '"' :: rest => some ([], rest)
  | '\\' :: c :: rest => (readLabel rest).map fun found => (c :: found.1, found.2)
  | c :: rest => (readLabel rest).map fun found => (c :: found.1, found.2)

theorem readLabel_cons {c : Char} (hquote : c ≠ '"') (hslash : c ≠ '\\')
    (rest : List Char) :
    readLabel (c :: rest) = (readLabel rest).map fun found => (c :: found.1, found.2) := by
  rw [readLabel]
  · exact hquote
  · intro _ _ hc
    exact absurd hc hslash

theorem escapeChar_of_ne {c : Char} (hquote : c ≠ '"') (hslash : c ≠ '\\') :
    escapeChar c = [c] := by
  rw [escapeChar]
  · exact hslash
  · exact hquote

/-- **Where a label ends**: at the first quote without a backslash of its own. -/
theorem readLabel_escape (label rest : List Char) :
    readLabel (label.flatMap escapeChar ++ '"' :: rest) = some (label, rest) := by
  induction label with
  | nil => rfl
  | cons c label ih =>
      rw [List.flatMap_cons, List.append_assoc]
      by_cases hslash : c = '\\'
      · subst hslash
        show (readLabel (label.flatMap escapeChar ++ '"' :: rest)).map _ = _
        rw [ih]
        rfl
      · by_cases hquote : c = '"'
        · subst hquote
          show (readLabel (label.flatMap escapeChar ++ '"' :: rest)).map _ = _
          rw [ih]
          rfl
        · rw [escapeChar_of_ne hquote hslash, List.singleton_append,
            readLabel_cons hquote hslash, ih]
          rfl

theorem escape_append_inj {label name : String} {rest other : List Char}
    (h : label.toList.flatMap escapeChar ++ '"' :: rest =
      name.toList.flatMap escapeChar ++ '"' :: other) :
    label = name ∧ rest = other := by
  have hread := congrArg readLabel h
  rw [readLabel_escape, readLabel_escape, Option.some.injEq, Prod.mk.injEq,
    String.toList_inj] at hread
  exact hread

/-! ## Statements -/

namespace Statement

/-- The words of a statement have no comma. -/
def Plain : Statement → Prop
  | .vertex _ shape fill _ => ',' ∉ shape.toList ∧ ∀ color ∈ fill, ',' ∉ color.toList
  | _ => True

/-- A label as it stands at the end of a statement. -/
def labelText (label : String) : String :=
  " label=\"" ++ escape label ++ "\"];\n"

/-- The colour of a vertex as it stands between the shape and the label. -/
def fillText (fill : Option String) : String :=
  fill.elim "" fun color => " style=filled, fillcolor=" ++ color ++ ","

/-- The rank of an edge, if there is one, and the end of the statement. -/
def rankText (rank : Option Nat) : String :=
  rank.elim ";\n" fun n => " [label=\"" ++ toString n ++ "\"];\n"

/-- A vertex, in front of a text. -/
theorem toList_vertex_append (id : Nat) (shape : String) (fill : Option String)
    (label : String) (rest : List Char) :
    (vertex id shape fill label).text.toList ++ rest =
      Nat.toDigits 10 id ++ ' ' :: ("[shape=".toList ++ (shape.toList ++ ',' ::
        ((fillText fill).toList ++ ((labelText label).toList ++ rest)))) := by
  cases fill with
  | none => simp [text, fillText, labelText]
  | some color => simp [text, fillText, labelText]

/-- The origin, in front of a text. -/
theorem toList_origin_append (id : Nat) (rest : List Char) :
    (origin id).text.toList ++ rest =
      '\x7b' :: (" rank=source; ".toList ++
        (Nat.toDigits 10 id ++ ' ' :: ("[peripheries=2]; \x7d\n".toList ++ rest))) := by
  simp [text]

/-- An edge, in front of a text. -/
theorem toList_edge_append (tail head : Nat) (rank : Option Nat) (rest : List Char) :
    (edge tail head rank).text.toList ++ rest =
      Nat.toDigits 10 tail ++ ' ' ::
        ("-> ".toList ++ (Nat.toDigits 10 head ++ ((rankText rank).toList ++ rest))) := by
  cases rank with
  | none => simp [text, rankText]
  | some n => simp [text, rankText]

theorem toList_labelText_append (label : String) (rest : List Char) :
    (labelText label).toList ++ rest =
      " label=\"".toList ++ (label.toList.flatMap escapeChar ++ '"' ::
        ("];\n".toList ++ rest)) := by
  simp [labelText, escape]

theorem toList_fillText_none_append (rest : List Char) :
    (fillText none).toList ++ rest = rest := by
  simp [fillText]

theorem toList_fillText_some_append (color : String) (rest : List Char) :
    (fillText (some color)).toList ++ rest =
      " style=filled, fillcolor=".toList ++ (color.toList ++ ',' :: rest) := by
  simp [fillText]

theorem toList_rankText_none_append (rest : List Char) :
    (rankText none).toList ++ rest = ';' :: '\n' :: rest := by
  simp [rankText]

theorem toList_rankText_some_append (n : Nat) (rest : List Char) :
    (rankText (some n)).toList ++ rest =
      ' ' :: ("[label=\"".toList ++ (Nat.toDigits 10 n ++ '"' ::
        ("];\n".toList ++ rest))) := by
  simp [rankText]

theorem labelText_append_inj {label name : String} {rest other : List Char}
    (h : (labelText label).toList ++ rest = (labelText name).toList ++ other) :
    label = name ∧ rest = other := by
  rw [toList_labelText_append, toList_labelText_append, List.append_right_inj] at h
  obtain ⟨hlabel, hrest⟩ := escape_append_inj h
  exact ⟨hlabel, (List.append_right_inj _).1 hrest⟩

/-- A colour cannot be taken for a label, since both are announced. -/
theorem fillText_append_ne_labelText (color label : String) (rest other : List Char) :
    (fillText (some color)).toList ++ rest ≠ (labelText label).toList ++ other := by
  rw [toList_fillText_some_append, toList_labelText_append]
  simp

theorem fillText_append_inj {fill color : Option String} {label name : String}
    {rest other : List Char} (hfill : ∀ word ∈ fill, ',' ∉ word.toList)
    (hcolor : ∀ word ∈ color, ',' ∉ word.toList)
    (h : (fillText fill).toList ++ ((labelText label).toList ++ rest) =
      (fillText color).toList ++ ((labelText name).toList ++ other)) :
    fill = color ∧ label = name ∧ rest = other := by
  cases fill with
  | none =>
      cases color with
      | none =>
          rw [toList_fillText_none_append, toList_fillText_none_append] at h
          exact ⟨rfl, labelText_append_inj h⟩
      | some word =>
          rw [toList_fillText_none_append] at h
          exact absurd h.symm (fillText_append_ne_labelText word label _ _)
  | some shade =>
      cases color with
      | none =>
          rw [toList_fillText_none_append] at h
          exact absurd h (fillText_append_ne_labelText shade name _ _)
      | some word =>
          rw [toList_fillText_some_append, toList_fillText_some_append,
            List.append_right_inj] at h
          obtain ⟨hword, -, hlabel⟩ :=
            append_separator_inj (hcolor word rfl) (hfill shade rfl) h
          exact ⟨congrArg some (String.toList_inj.1 hword), labelText_append_inj hlabel⟩

theorem rankText_append_inj {head next : Nat} {rank level : Option Nat}
    {rest other : List Char}
    (h : Nat.toDigits 10 head ++ ((rankText rank).toList ++ rest) =
      Nat.toDigits 10 next ++ ((rankText level).toList ++ other)) :
    head = next ∧ rank = level ∧ rest = other := by
  cases rank with
  | none =>
      cases level with
      | none =>
          rw [toList_rankText_none_append, toList_rankText_none_append] at h
          obtain ⟨hhead, -, hrest⟩ := toDigits_append_inj rfl rfl h
          exact ⟨hhead, rfl, (List.cons.inj hrest).2⟩
      | some m =>
          rw [toList_rankText_none_append, toList_rankText_some_append] at h
          exact absurd (toDigits_append_inj rfl rfl h).2.1 (by decide)
  | some n =>
      cases level with
      | none =>
          rw [toList_rankText_none_append, toList_rankText_some_append] at h
          exact absurd (toDigits_append_inj rfl rfl h).2.1 (by decide)
      | some m =>
          rw [toList_rankText_some_append, toList_rankText_some_append] at h
          obtain ⟨hhead, -, hlabel⟩ := toDigits_append_inj rfl rfl h
          obtain ⟨hrank, -, hrest⟩ :=
            toDigits_append_inj rfl rfl ((List.append_right_inj _).1 hlabel)
          exact ⟨hhead, congrArg some hrank, (List.append_right_inj _).1 hrest⟩

/-- **A statement can be told from what follows it**, whatever its label says. -/
theorem text_append_inj {s t : Statement} (hs : s.Plain) (ht : t.Plain)
    {rest other : List Char} (h : s.text.toList ++ rest = t.text.toList ++ other) :
    s = t ∧ rest = other := by
  cases s with
  | vertex id shape fill label =>
      rw [toList_vertex_append] at h
      cases t with
      | vertex number form color name =>
          rw [toList_vertex_append] at h
          obtain ⟨rfl, -, hshape⟩ := toDigits_append_inj rfl rfl h
          obtain ⟨hform, -, hfill⟩ :=
            append_separator_inj ht.1 hs.1 ((List.append_right_inj _).1 hshape)
          obtain rfl := String.toList_inj.1 hform
          obtain ⟨rfl, rfl, rfl⟩ := fillText_append_inj hs.2 ht.2 hfill
          exact ⟨rfl, rfl⟩
      | origin number =>
          rw [toList_origin_append] at h
          exact absurd h (toDigits_append_ne_cons rfl (by decide))
      | edge tail head rank =>
          rw [toList_edge_append] at h
          have hnext := (toDigits_append_inj rfl rfl h).2.2
          simp at hnext
  | origin id =>
      rw [toList_origin_append] at h
      cases t with
      | vertex number form color name =>
          rw [toList_vertex_append] at h
          exact absurd h.symm (toDigits_append_ne_cons rfl (by decide))
      | origin number =>
          rw [toList_origin_append, List.cons.injEq, List.append_right_inj] at h
          obtain ⟨rfl, -, hrest⟩ := toDigits_append_inj rfl rfl h.2
          exact ⟨rfl, (List.append_right_inj _).1 hrest⟩
      | edge tail head rank =>
          rw [toList_edge_append] at h
          exact absurd h.symm (toDigits_append_ne_cons rfl (by decide))
  | edge tail head rank =>
      rw [toList_edge_append] at h
      cases t with
      | vertex number form color name =>
          rw [toList_vertex_append] at h
          have hnext := (toDigits_append_inj rfl rfl h).2.2
          simp at hnext
      | origin number =>
          rw [toList_origin_append] at h
          exact absurd h (toDigits_append_ne_cons rfl (by decide))
      | edge start next level =>
          rw [toList_edge_append] at h
          obtain ⟨rfl, -, hhead⟩ := toDigits_append_inj rfl rfl h
          obtain ⟨rfl, rfl, rfl⟩ := rankText_append_inj ((List.append_right_inj _).1 hhead)
          exact ⟨rfl, rfl⟩

/-- No statement begins like the end of a drawing. -/
theorem text_append_ne_end (s : Statement) (rest other : List Char) :
    s.text.toList ++ rest ≠ '\x7d' :: other := by
  cases s with
  | vertex id shape fill label =>
      rw [toList_vertex_append]
      exact toDigits_append_ne_cons rfl (by decide)
  | origin id =>
      rw [toList_origin_append]
      intro h
      exact absurd (List.cons.inj h).1 (by decide)
  | edge tail head rank =>
      rw [toList_edge_append]
      exact toDigits_append_ne_cons rfl (by decide)

/-- Statements can be told from their texts, one after the other. -/
theorem eq_of_flatMap_text_eq {drawn others : List Statement}
    (hdrawn : ∀ s ∈ drawn, s.Plain) (hothers : ∀ t ∈ others, t.Plain)
    {rest more : List Char}
    (h : drawn.flatMap (fun s => s.text.toList) ++ '\x7d' :: rest =
      others.flatMap (fun t => t.text.toList) ++ '\x7d' :: more) : drawn = others := by
  induction drawn generalizing others with
  | nil =>
      cases others with
      | nil => rfl
      | cons t others =>
          rw [List.flatMap_cons, List.append_assoc] at h
          exact absurd h.symm (text_append_ne_end t _ _)
  | cons s drawn ih =>
      cases others with
      | nil =>
          rw [List.flatMap_cons, List.append_assoc] at h
          exact absurd h (text_append_ne_end s _ _)
      | cons t others =>
          obtain ⟨hs, hrest⟩ := List.forall_mem_cons.1 hdrawn
          obtain ⟨ht, hmore⟩ := List.forall_mem_cons.1 hothers
          rw [List.flatMap_cons, List.flatMap_cons, List.append_assoc,
            List.append_assoc] at h
          obtain ⟨rfl, hnext⟩ := text_append_inj hs ht h
          rw [ih hrest hmore hnext]

end Statement

/-! ## Drawings and their texts -/

/-- A style in which a reader can tell closed from open, and decisions from effects. -/
structure DrawingStyle.Legible (style : DrawingStyle) : Prop where
  effectShape : ',' ∉ style.effectShape.toList
  decisionShape : ',' ∉ style.decisionShape.toList
  closedFill : ',' ∉ style.closedFill.toList
  shapes : style.decisionShape ≠ style.effectShape
  showRanks : style.showRanks = true

/-- The style of a drawing of which nothing else is said. -/
theorem DrawingStyle.legible_default : DrawingStyle.Legible {} where
  effectShape := by decide
  decisionShape := by decide
  closedFill := by decide
  shapes := by decide
  showRanks := rfl

namespace Atlas

section

variable {atlas other : Atlas} {style : DrawingStyle}

theorem plain_of_mem_drawing (hstyle : style.Legible) {s : Statement}
    (hs : s ∈ atlas.drawing style) : s.Plain := by
  simp only [drawing, List.mem_append, List.mem_map] at hs
  rcases hs with (⟨⟨v, clause⟩, -, rfl⟩ | ⟨v, -, rfl⟩) | ⟨edge, -, rfl⟩
  · dsimp only [vertexStatement]
    split
    · refine ⟨hstyle.decisionShape, ?_⟩
      intro color hcolor
      split at hcolor
      · cases hcolor
        exact hstyle.closedFill
      · cases hcolor
    · exact ⟨hstyle.effectShape, fun color hcolor => by cases hcolor⟩
  · trivial
  · trivial

theorem toList_dotText (atlas : Atlas) (style : DrawingStyle) :
    (atlas.dotText style).toList = "digraph \x7b\n".toList ++
      ((atlas.drawing style).flatMap (fun s => s.text.toList) ++ '\x7d' :: ['\n']) := by
  simp [dotText, String.toList_join, List.flatMap_map]

/-- **A text is that of one drawing.** -/
theorem drawing_eq_of_dotText_eq (hstyle : style.Legible)
    (h : atlas.dotText style = other.dotText style) :
    atlas.drawing style = other.drawing style := by
  have htext := congrArg String.toList h
  rw [toList_dotText, toList_dotText, List.append_right_inj] at htext
  exact Statement.eq_of_flatMap_text_eq (fun _ => plain_of_mem_drawing hstyle)
    (fun _ => plain_of_mem_drawing hstyle) htext

end

end Atlas

end Concolic
