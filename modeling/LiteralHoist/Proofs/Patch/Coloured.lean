import LiteralHoist.Proofs.Patch.Control
import Mathlib.Data.List.Forall2

/-!
# Coloured texts

A coloured text has the lines of the text, each with all of its octets.  A line with a style has one
control sequence before its content and one after it, and no other line has any, so what is shown
in a style is the content of a line, and a line feed is shown without attributes.
-/

set_option autoImplicit false

namespace LiteralHoist.Patch

/-- What is relied on of a painter: a text in a style is the text after the sequence that switches
the style on and before one that switches it off again. -/
structure Paints (paint : Style → Text → Text) (off : Style → Nat) : Prop where
  spelled : ∀ style text, paint style text = control style.on ++ text ++ control (off style)
  closes : ∀ style : Style, switched [style.on] (off style) = []

theorem paints_paint : Paints Style.paint Style.off where
  spelled _ _ := rfl
  closes style := by cases style <;> rfl

theorem switched_on (style : Style) : switched [] style.on = [style.on] := by
  cases style <;> rfl

def linePieces (off : Style → Nat) (line : Text) : List Piece :=
  match styleOf? line with
  | none => line.octets.map .octet
  | some style =>
    .control style.on :: (content line).octets.map .octet ++
      .control (off style) :: (ending line).octets.map .octet

/-- The octets of a coloured line as they are shown: the content with the attribute of the style,
and the line feed without. -/
def lineShown (line : Text) : List (UInt8 × List Nat) :=
  (content line).octets.map (fun b => (b, (styleOf? line).toList.map Style.on)) ++
    (ending line).octets.map (fun b => (b, []))

theorem startsWith_trans {line longer start : Text} (longerStarts : longer.startsWith start = true)
    (starts : line.startsWith longer = true) : line.startsWith start = true :=
  List.isPrefixOf_iff_prefix.mpr
    ((List.isPrefixOf_iff_prefix.mp longerStarts).trans (List.isPrefixOf_iff_prefix.mp starts))

/-- A line has a style just if it has one of four starts.  Two of the lines of a header start like
a deleted and an inserted line. -/
theorem styleOf?_eq_none_iff (line : Text) : styleOf? line = none ↔
    ∀ start ∈ (["diff ", "@", "-", "+"] : List Text), line.startsWith start = false := by
  have minus : line.startsWith "--- " = true → line.startsWith "-" = true :=
    startsWith_trans (by decide)
  have plus : line.startsWith "+++ " = true → line.startsWith "+" = true :=
    startsWith_trans (by decide)
  simp only [styleOf?, headerStarts, List.any_cons, List.any_nil, List.forall_mem_cons]
  grind

theorem filterMap_linePieces (off : Style → Nat) (line : Text) :
    (linePieces off line).filterMap Piece.octet? = line.octets := by
  cases found : styleOf? line with
  | none =>
      simp only [linePieces, found]
      exact filterMap_octets line.octets
  | some style =>
      simp only [linePieces, found]
      rw [List.filterMap_append, List.filterMap_cons_none rfl, List.filterMap_cons_none rfl,
        filterMap_octets, filterMap_octets, octets_content_append]

theorem attributes_of_lineFeed {line : Text} (single : IsLine line) {attributes : List Nat}
    (member : (lineFeed, attributes) ∈ lineShown line) : attributes = [] := by
  rcases List.mem_append.mp member with inContent | inEnding
  · obtain ⟨b, inside, same⟩ := List.mem_map.mp inContent
    obtain rfl : b = lineFeed := (Prod.mk.inj same).1
    exact absurd inside single.lineFeed_not_mem_content
  · obtain ⟨b, _, same⟩ := List.mem_map.mp inEnding
    exact (Prod.mk.inj same).2.symm

section Painted
variable {paint : Style → Text → Text} {off : Style → Nat} (paints : Paints paint off)
include paints

theorem pieces_append_colourLine {line : Text} (plain : escape ∉ line.octets)
    (rest : List UInt8) :
    pieces ((colourLine paint line).octets ++ rest) = linePieces off line ++ pieces rest := by
  cases found : styleOf? line with
  | none =>
      simp only [colourLine, linePieces, found]
      exact pieces_octets plain rest
  | some style =>
      rw [← octets_content_append, List.mem_append, not_or] at plain
      simp only [colourLine, linePieces, found, paints.spelled, Text.octets_append,
        List.append_assoc, List.cons_append]
      rw [pieces_control, pieces_octets plain.1, pieces_control, pieces_octets plain.2]

theorem pieces_colourLine {line : Text} (plain : escape ∉ line.octets) :
    pieces (colourLine paint line).octets = linePieces off line := by
  have whole := pieces_append_colourLine paints plain []
  rwa [List.append_nil, pieces_nil, List.append_nil] at whole

theorem shownFrom_linePieces (line : Text) (rest : List Piece) :
    shownFrom [] (linePieces off line ++ rest) = lineShown line ++ shownFrom [] rest := by
  cases found : styleOf? line with
  | none =>
      simp only [linePieces, lineShown, found]
      rw [shownFrom_octets, ← octets_content_append, List.map_append]
      rfl
  | some style =>
      simp only [linePieces, lineShown, found, List.append_assoc, List.cons_append, shownFrom]
      rw [switched_on, shownFrom_octets, shownFrom, paints.closes, shownFrom_octets]
      rfl

theorem lineFeed_not_mem_paint (style : Style) {text : Text} (free : lineFeed ∉ text.octets) :
    lineFeed ∉ (paint style text).octets := by
  rw [paints.spelled, Text.octets_append, Text.octets_append]
  simp [lineFeed_not_mem_control, free]

theorem isEndedLine_colourLine {line : Text} (ended : IsEndedLine line) :
    IsEndedLine (colourLine paint line) := by
  cases found : styleOf? line with
  | none =>
      simp only [colourLine, found]
      exact ended
  | some style =>
      simp only [colourLine, found]
      obtain ⟨body, free, rfl⟩ := ended
      rw [content_ended, ending_ended]
      exact ⟨_, lineFeed_not_mem_paint paints style free, rfl⟩

theorem isOpenLine_colourLine {line : Text} (isOpen : IsOpenLine line) :
    IsOpenLine (colourLine paint line) := by
  cases found : styleOf? line with
  | none =>
      simp only [colourLine, found]
      exact isOpen
  | some style =>
      simp only [colourLine, found]
      obtain ⟨body, free, -, rfl⟩ := isOpen
      rw [content_open free, ending_open free, Text.append_empty]
      refine ⟨_, lineFeed_not_mem_paint paints style free, ?_, rfl⟩
      rw [paints.spelled]
      exact List.cons_ne_nil _ _

theorem lines_colouredBy (text : Text) :
    lines (colouredBy paint text) = (lines text).map (colourLine paint) :=
  ((areLines_lines text).map (isEndedLine_colourLine paints)
    (isOpenLine_colourLine paints)).lines_join

theorem pieces_colouredLines {ls : List Text} (plain : ∀ line ∈ ls, escape ∉ line.octets) :
    pieces (Text.join (ls.map (colourLine paint))).octets = ls.flatMap (linePieces off) := by
  induction ls with
  | nil => exact pieces_nil
  | cons line rest ih =>
      obtain ⟨here, later⟩ := List.forall_mem_cons.mp plain
      rw [List.map_cons, Text.join_cons, Text.octets_append,
        pieces_append_colourLine paints here, ih later, List.flatMap_cons]

theorem pieces_colouredBy {text : Text} (plain : escape ∉ text.octets) :
    pieces (colouredBy paint text).octets = (lines text).flatMap (linePieces off) :=
  pieces_colouredLines paints fun _ member => not_mem_of_mem_lines member plain

theorem withoutControls_colouredBy {text : Text} (plain : escape ∉ text.octets) :
    withoutControls (colouredBy paint text) = text := by
  rw [withoutControls, pieces_colouredBy paints plain, List.filterMap_flatMap]
  simp only [filterMap_linePieces]
  exact join_lines text

theorem shownOctets_colouredBy {text : Text} (plain : escape ∉ text.octets) :
    shownOctets (colouredBy paint text) = (lines text).flatMap lineShown := by
  rw [shownOctets, pieces_colouredBy paints plain]
  induction lines text with
  | nil => rfl
  | cons line rest ih =>
      rw [List.flatMap_cons, List.flatMap_cons, shownFrom_linePieces paints, ih]

end Painted

/-- Colouring only decorates.  Without its control sequences a coloured text is the text; every line
feed of it is shown without attributes; and its lines are those of the text, with one pair of
control sequences around the content of a line that has a style and none in any other line. -/
theorem colours_only_decorate {paint : Style → Text → Text} {off : Style → Nat}
    (paints : Paints paint off) {text : Text} (plain : escape ∉ text.octets) :
    withoutControls (colouredBy paint text) = text ∧
      (∀ attributes, (lineFeed, attributes) ∈ shownOctets (colouredBy paint text) →
        attributes = []) ∧
      List.Forall₂ (fun line painted => pieces painted.octets = linePieces off line)
        (lines text) (lines (colouredBy paint text)) := by
  refine ⟨withoutControls_colouredBy paints plain, ?_, ?_⟩
  · intro attributes member
    rw [shownOctets_colouredBy paints plain] at member
    obtain ⟨line, inText, here⟩ := List.mem_flatMap.mp member
    exact attributes_of_lineFeed (isLine_of_mem_lines inText) here
  · rw [lines_colouredBy paints, List.forall₂_map_right_iff, List.forall₂_same]
    exact fun line inText => pieces_colourLine paints (not_mem_of_mem_lines inText plain)

/-- A header, an empty line, and a line that is not ended. -/
theorem openPatch_decorated :
    withoutControls (coloured "--- a\n\n-x") = "--- a\n\n-x" ∧
      (∀ attributes, (lineFeed, attributes) ∈ shownOctets (coloured "--- a\n\n-x") →
        attributes = []) ∧
      List.Forall₂ (fun line painted => pieces painted.octets = linePieces Style.off line)
        (lines "--- a\n\n-x") (lines (coloured "--- a\n\n-x")) :=
  colours_only_decorate paints_paint (by decide)

theorem withoutControls_coloured {text : Text} (plain : escape ∉ text.octets) :
    withoutControls (coloured text) = text :=
  withoutControls_colouredBy paints_paint plain

example : coloured "--- a\n\n-x" = "\x1b[1m--- a\x1b[22m\n\n\x1b[31m-x\x1b[0m" := by decide

end LiteralHoist.Patch
