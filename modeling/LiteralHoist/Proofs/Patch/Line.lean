import LiteralHoist.Patch.Line
import LiteralHoist.Proofs.Text.Join
import Mathlib.Data.List.Basic

/-!
# Lines of a text

A text is what its lines spell, each of them without a line feed inside.  All of them but the last
are ended, and a text that is spelled by such lines has these lines.
-/

set_option autoImplicit false

namespace LiteralHoist.Patch

/-- A line: octets other than line feeds, with a line feed after them if the line is ended. -/
def IsLine (line : Text) : Prop :=
  ∃ body, lineFeed ∉ body ∧ (line = ⟨body⟩ ∨ line = ⟨body ++ [lineFeed]⟩)

def IsEndedLine (line : Text) : Prop :=
  ∃ body, lineFeed ∉ body ∧ line = ⟨body ++ [lineFeed]⟩

def IsOpenLine (line : Text) : Prop :=
  ∃ body, lineFeed ∉ body ∧ body ≠ [] ∧ line = ⟨body⟩

theorem IsEndedLine.isLine {line : Text} (ended : IsEndedLine line) : IsLine line := by
  obtain ⟨body, free, same⟩ := ended
  exact ⟨body, free, .inr same⟩

theorem IsOpenLine.isLine {line : Text} (isOpen : IsOpenLine line) : IsLine line := by
  obtain ⟨body, free, -, same⟩ := isOpen
  exact ⟨body, free, .inl same⟩

theorem flatMap_linesFrom (bs : List UInt8) : ∀ line : List UInt8,
    (linesFrom line bs).flatMap Text.octets = line.reverse ++ bs := by
  induction bs with
  | nil =>
      intro line
      rw [linesFrom]
      split
      · rename_i empty
        rw [List.isEmpty_iff.mp empty]
        rfl
      · simp
  | cons b rest ih =>
      intro line
      rw [linesFrom]
      split
      · simp [ih]
      · simp [ih]

theorem join_lines (t : Text) : Text.join (lines t) = t :=
  congrArg Text.mk (flatMap_linesFrom t.octets [])

theorem lines_injective {a b : Text} (same : lines a = lines b) : a = b := by
  rw [← join_lines a, ← join_lines b, same]

theorem not_mem_of_mem_lines {t line : Text} (member : line ∈ lines t) {b : UInt8}
    (absent : b ∉ t.octets) : b ∉ line.octets := by
  rw [← join_lines t] at absent
  exact fun inside => absent (List.mem_flatMap.mpr ⟨line, member, inside⟩)

theorem linesFrom_ended (rest body : List UInt8) : ∀ line : List UInt8, lineFeed ∉ body →
    linesFrom line (body ++ lineFeed :: rest) =
      ⟨line.reverse ++ body ++ [lineFeed]⟩ :: linesFrom [] rest := by
  induction body with
  | nil =>
      intro line _
      simp [linesFrom]
  | cons b more ih =>
      intro line free
      have different : b ≠ lineFeed := fun same => free (same ▸ List.mem_cons_self)
      have later : lineFeed ∉ more := fun member => free (List.mem_cons_of_mem _ member)
      rw [List.cons_append, linesFrom, if_neg different, ih (b :: line) later]
      simp

theorem linesFrom_open (body : List UInt8) : ∀ line : List UInt8, lineFeed ∉ body →
    linesFrom line body =
      if (line.reverse ++ body).isEmpty then [] else [⟨line.reverse ++ body⟩] := by
  induction body with
  | nil =>
      intro line _
      simp [linesFrom]
  | cons b more ih =>
      intro line free
      have different : b ≠ lineFeed := fun same => free (same ▸ List.mem_cons_self)
      have later : lineFeed ∉ more := fun member => free (List.mem_cons_of_mem _ member)
      rw [linesFrom, if_neg different, ih (b :: line) later]
      simp

theorem lines_append {line : Text} (ended : IsEndedLine line) (rest : Text) :
    lines (line ++ rest) = line :: lines rest := by
  obtain ⟨body, free, rfl⟩ := ended
  have spelled : (Text.mk (body ++ [lineFeed]) ++ rest).octets = body ++ lineFeed :: rest.octets :=
    List.append_assoc body [lineFeed] rest.octets
  rw [lines, spelled, linesFrom_ended rest.octets body [] free]
  rfl

theorem lines_open {line : Text} (isOpen : IsOpenLine line) : lines line = [line] := by
  obtain ⟨body, free, some, rfl⟩ := isOpen
  rw [lines, linesFrom_open body [] free, if_neg (by simpa using some)]
  rfl

/-- Whether texts are the lines of one text: all but the last are ended. -/
def AreLines : List Text → Prop
  | [] => True
  | [line] => IsEndedLine line ∨ IsOpenLine line
  | line :: rest => IsEndedLine line ∧ AreLines rest

theorem AreLines.cons {line : Text} {rest : List Text} (ended : IsEndedLine line)
    (areLines : AreLines rest) : AreLines (line :: rest) := by
  cases rest with
  | nil => exact .inl ended
  | cons next later => exact ⟨ended, areLines⟩

theorem areLines_of_ended {ls : List Text} (ended : ∀ l ∈ ls, IsEndedLine l) : AreLines ls := by
  induction ls with
  | nil => trivial
  | cons l rest ih =>
      obtain ⟨here, later⟩ := List.forall_mem_cons.mp ended
      exact .cons here (ih later)

theorem areLines_linesFrom (bs : List UInt8) : ∀ line : List UInt8, lineFeed ∉ line →
    AreLines (linesFrom line bs) := by
  induction bs with
  | nil =>
      intro line free
      rw [linesFrom]
      split
      · trivial
      · rename_i some
        exact .inr ⟨line.reverse, by simpa using free, by simpa using some, rfl⟩
  | cons b rest ih =>
      intro line free
      rw [linesFrom]
      split
      · rename_i ended
        exact .cons ⟨line.reverse, by simpa using free, by simp [ended]⟩ (ih [] List.not_mem_nil)
      · rename_i going
        exact ih (b :: line) (List.not_mem_cons_of_ne_of_not_mem (Ne.symm going) free)

theorem areLines_lines (t : Text) : AreLines (lines t) :=
  areLines_linesFrom t.octets [] List.not_mem_nil

theorem AreLines.isLine {ls : List Text} (areLines : AreLines ls) : ∀ l ∈ ls, IsLine l := by
  induction ls with
  | nil => exact fun _ member => nomatch member
  | cons line rest ih =>
      rw [List.forall_mem_cons]
      cases rest with
      | nil => exact ⟨areLines.elim IsEndedLine.isLine IsOpenLine.isLine, by simp⟩
      | cons next later => exact ⟨areLines.1.isLine, ih areLines.2⟩

theorem isLine_of_mem_lines {t line : Text} (member : line ∈ lines t) : IsLine line :=
  (areLines_lines t).isLine line member

/-- The text that is spelled by lines has these lines. -/
theorem AreLines.lines_join {ls : List Text} (areLines : AreLines ls) :
    lines (Text.join ls) = ls := by
  induction ls with
  | nil => rfl
  | cons line rest ih =>
      rw [Text.join_cons]
      cases rest with
      | nil =>
          rcases areLines with ended | isOpen
          · exact lines_append ended _
          · exact (Text.append_empty line).symm ▸ lines_open isOpen
      | cons next later => rw [lines_append areLines.1, ih areLines.2]

/-- A text that is spelled by ended lines has these lines. -/
theorem lines_join {ls : List Text} (ended : ∀ l ∈ ls, IsEndedLine l) :
    lines (Text.join ls) = ls :=
  (areLines_of_ended ended).lines_join

theorem AreLines.map {f : Text → Text} (keepsEnded : ∀ {l}, IsEndedLine l → IsEndedLine (f l))
    (keepsOpen : ∀ {l}, IsOpenLine l → IsOpenLine (f l)) {ls : List Text}
    (areLines : AreLines ls) : AreLines (ls.map f) := by
  induction ls with
  | nil => trivial
  | cons line rest ih =>
      cases rest with
      | nil => exact areLines.imp keepsEnded keepsOpen
      | cons next later => exact ⟨keepsEnded areLines.1, ih areLines.2⟩

theorem isEnded_ended (body : List UInt8) : isEnded ⟨body ++ [lineFeed]⟩ = true := by
  simp [isEnded]

theorem isEnded_open {body : List UInt8} (free : lineFeed ∉ body) : isEnded ⟨body⟩ = false := by
  rw [isEnded, beq_eq_false_iff_ne]
  exact fun last => free (List.mem_of_getLast? last)

theorem content_ended (body : List UInt8) : content ⟨body ++ [lineFeed]⟩ = ⟨body⟩ := by
  simp [content, isEnded_ended]

theorem content_open {body : List UInt8} (free : lineFeed ∉ body) : content ⟨body⟩ = ⟨body⟩ := by
  simp [content, isEnded_open free]

theorem ending_ended (body : List UInt8) : ending ⟨body ++ [lineFeed]⟩ = "\n" := by
  simp [ending, isEnded_ended]

theorem ending_open {body : List UInt8} (free : lineFeed ∉ body) : ending ⟨body⟩ = "" := by
  simp [ending, isEnded_open free]

theorem content_append_ending (line : Text) : content line ++ ending line = line := by
  rw [content, ending]
  split
  · rename_i ended
    exact congrArg Text.mk (List.dropLast_append_getLast? lineFeed (eq_of_beq ended))
  · exact Text.append_empty line

theorem octets_content_append (line : Text) :
    (content line).octets ++ (ending line).octets = line.octets :=
  congrArg Text.octets (content_append_ending line)

theorem IsLine.lineFeed_not_mem_content {line : Text} (single : IsLine line) :
    lineFeed ∉ (content line).octets := by
  obtain ⟨body, free, rfl | rfl⟩ := single
  · rwa [content_open free]
  · rwa [content_ended]

end LiteralHoist.Patch
