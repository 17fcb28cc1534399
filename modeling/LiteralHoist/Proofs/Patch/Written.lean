import LiteralHoist.Proofs.Patch.Reading

/-!
# Written hunks are read back

The text of a hunk is a list of ended lines: its ranges, and for each edit the marked line, with a
note after it if the line is not ended.  Without the notes these are the lines that the reader
takes.
-/

set_option autoImplicit false

namespace LiteralHoist.Patch

def note : Text := "\\ No newline at end of file\n"

/-- A line as it is written: one that is not ended gets its end, and a note that it had none. -/
def noted (line : Text) : List Text :=
  if isEnded line then [line] else [⟨line.octets ++ [lineFeed]⟩, note]

theorem isEndedLine_note : IsEndedLine note :=
  ⟨note.octets.dropLast, by decide, by decide⟩

theorem noted_ended (body : List UInt8) :
    noted ⟨body ++ [lineFeed]⟩ = [⟨body ++ [lineFeed]⟩] := by
  rw [noted, isEnded_ended, if_pos rfl]

theorem noted_open {body : List UInt8} (free : lineFeed ∉ body) :
    noted ⟨body⟩ = [⟨body ++ [lineFeed]⟩, note] := by
  rw [noted, isEnded_open free]
  rfl

theorem isEndedLine_of_mem_noted {line : Text} (single : IsLine line) :
    ∀ l ∈ noted line, IsEndedLine l := by
  obtain ⟨body, free, rfl | rfl⟩ := single
  · rw [noted_open free]
    intro l member
    rcases List.mem_cons.mp member with rfl | last
    · exact ⟨body, free, rfl⟩
    · rw [List.mem_singleton.mp last]
      exact isEndedLine_note
  · rw [noted_ended]
    intro l member
    rw [List.mem_singleton.mp member]
    exact ⟨body, free, rfl⟩

def Unnoted (ls : List Text) : Prop :=
  ∀ l ∈ ls.head?, l.octets.head? ≠ some 0x5C

theorem withoutNotes_cons (line : Text) {rest : List Text} (unnoted : Unnoted rest) :
    withoutNotes (line :: rest) = line :: withoutNotes rest := by
  cases rest with
  | nil => rfl
  | cons next later => rw [withoutNotes, if_neg (unnoted next rfl)]

theorem withoutNotes_noted {line : Text} (single : IsLine line) {rest : List Text}
    (unnoted : Unnoted rest) :
    withoutNotes (noted line ++ rest) = line :: withoutNotes rest := by
  obtain ⟨body, free, rfl | rfl⟩ := single
  · rw [noted_open free]
    change withoutNotes (⟨body ++ [lineFeed]⟩ :: note :: rest) = _
    rw [withoutNotes, if_pos (by decide), content_ended]
  · rw [noted_ended]
    exact withoutNotes_cons _ unnoted

theorem unnoted_noted {line : Text} {b : UInt8} {shown : List UInt8}
    (start : line.octets = b :: shown) (mark : b ≠ 0x5C) (rest : List Text) :
    Unnoted (noted line ++ rest) := by
  intro l member
  have first : l.octets.head? = some b := by
    rw [noted] at member
    split at member
    all_goals
      obtain rfl := Option.some.inj member
      simp [start]
  rw [first]
  exact fun same => mark (Option.some.inj same)

def Edit.line : Edit → Text
  | .keep line => line
  | .delete line => line
  | .insert line => line

def Edit.mark : Edit → UInt8
  | .keep _ => 0x20
  | .delete _ => 0x2D
  | .insert _ => 0x2B

def Edit.marked (e : Edit) : Text :=
  ⟨e.mark :: e.line.octets⟩

theorem Edit.mark_plain (e : Edit) : e.mark ≠ lineFeed ∧ e.mark ≠ 0x5C := by
  cases e <;> simp [mark, lineFeed]

theorem Edit.isLine_marked {e : Edit} (single : IsLine e.line) : IsLine e.marked := by
  obtain ⟨body, free, same⟩ := single
  refine ⟨e.mark :: body, fun member => ?_, ?_⟩
  · rcases List.mem_cons.mp member with first | later
    · exact e.mark_plain.1 first.symm
    · exact free later
  · rw [Edit.marked]
    rcases same with same | same
    · exact .inl (by rw [same])
    · exact .inr (by rw [same, List.cons_append])

theorem isEnded_cons {b : UInt8} (mark : b ≠ lineFeed) (bs : List UInt8) :
    isEnded ⟨b :: bs⟩ = isEnded ⟨bs⟩ := by
  cases bs with
  | nil => simp [isEnded, mark]
  | cons c rest => simp [isEnded, List.getLast?_cons_cons]

theorem markedLine_eq {b : UInt8} (plain : b ≠ lineFeed) {mark : Text} (one : mark.octets = [b])
    (line : Text) : markedLine mark line = Text.join (noted ⟨b :: line.octets⟩) := by
  obtain ⟨octets⟩ := mark
  subst one
  rw [markedLine, noted, isEnded_cons plain]
  split
  · exact congrArg Text.mk (List.append_nil _).symm
  · change Text.mk (b :: (line.octets ++ lineFeed :: note.octets)) = _
    simp [Text.join]

theorem Edit.text_eq (e : Edit) : e.text = Text.join (noted e.marked) := by
  cases e with
  | keep line => exact markedLine_eq (by decide) rfl line
  | delete line => exact markedLine_eq (by decide) rfl line
  | insert line => exact markedLine_eq (by decide) rfl line

/-- The marked lines of edits are read back as the edits. -/
theorem readEdits?_marked (edits : List Edit) (rest : List Text) :
    readEdits? (oldLines edits).length (newLines edits).length
      (edits.map Edit.marked ++ rest) = some (edits, rest) := by
  induction edits with
  | nil => simp [readEdits?]
  | cons e later ih =>
      cases e with
      | keep line =>
          simp [readEdits?, Edit.old?, Edit.new?, Edit.marked, Edit.mark, Edit.line, ih]
      | delete line =>
          simp [readEdits?, Edit.old?, Edit.new?, Edit.marked, Edit.mark, Edit.line, ih]
      | insert line =>
          simp [readEdits?, Edit.old?, Edit.new?, Edit.marked, Edit.mark, Edit.line, ih]

theorem lineFeed_not_mem_ofChars {cs : List Char} (printable : ∀ c ∈ cs, 0x20 ≤ c.toNat) :
    lineFeed ∉ (Text.ofChars cs).octets := by
  intro member
  obtain ⟨c, inside, spelled⟩ := List.mem_flatMap.mp member
  have visible := printable c inside
  have value : lineFeed.toNat = 10 := rfl
  by_cases ascii : c.toNat < 128
  · rw [Text.encodeChar_ascii ascii, List.mem_singleton] at spelled
    rw [spelled, Text.octet_toNat (by omega)] at value
    omega
  · have large := Text.le_octet (Nat.le_of_not_lt ascii) spelled
    omega

theorem printable_toDigits (n : Nat) : ∀ c ∈ Nat.toDigits 10 n, 0x20 ≤ c.toNat := by
  intro c member
  have digit : c.isDigit = true := Nat.isDigit_of_mem_toDigits (by decide) (by decide) member
  have first : '0'.toNat ≤ c.toNat := (Char.isDigit_iff_toNat.mp digit).1
  exact Nat.le_trans (by decide) first

theorem printable_rangeChars (start count : Nat) :
    ∀ c ∈ rangeChars start count, 0x20 ≤ c.toNat := by
  rw [rangeChars]
  split
  · exact List.forall_mem_append.mpr ⟨printable_toDigits _, by simp⟩
  · split
    · exact printable_toDigits _
    · exact List.forall_mem_append.mpr ⟨printable_toDigits _,
        List.forall_mem_cons.mpr ⟨by decide, printable_toDigits _⟩⟩

theorem printable_rangesChars (h : Hunk) : ∀ c ∈ h.rangesChars, 0x20 ≤ c.toNat := by
  have old := printable_rangeChars h.oldStart (oldLines h.edits).length
  have new := printable_rangeChars h.newStart (newLines h.edits).length
  simp only [Hunk.rangesChars, List.forall_mem_append]
  exact ⟨⟨⟨⟨by simp, old⟩, by simp⟩, new⟩, by simp⟩

def Hunk.lines (h : Hunk) : List Text :=
  h.ranges :: h.edits.flatMap fun e => noted e.marked

theorem join_edits (edits : List Edit) : Text.join (edits.map Edit.text) =
    Text.join (edits.flatMap fun e => noted e.marked) := by
  rw [← Text.join_map_join]
  exact congrArg Text.join (List.map_congr_left fun e _ => e.text_eq)

theorem Hunk.ranges_eq (h : Hunk) : h.ranges =
    "@@ -" ++ rangeText h.oldStart (oldLines h.edits).length ++
      " +" ++ rangeText h.newStart (newLines h.edits).length ++ " @@\n" := by
  have ended : h.rangesChars ++ ['\n'] =
      ['@', '@', ' ', '-'] ++ rangeChars h.oldStart (oldLines h.edits).length ++ [' ', '+'] ++
        rangeChars h.newStart (newLines h.edits).length ++ [' ', '@', '@', '\n'] :=
    List.append_assoc _ _ _
  rw [Hunk.ranges, ended, Text.ofChars_append, Text.ofChars_append, Text.ofChars_append,
    Text.ofChars_append, rangeText_eq, rangeText_eq]
  rfl

theorem Hunk.text_eq (h : Hunk) : h.text = Text.join h.lines := by
  rw [Hunk.text, ← h.ranges_eq, join_edits]
  rfl

theorem isEndedLine_ranges (h : Hunk) : IsEndedLine h.ranges :=
  ⟨_, lineFeed_not_mem_ofChars (printable_rangesChars h), Text.ofChars_append _ _⟩

theorem unnoted_ranges (h : Hunk) (rest : List Text) : Unnoted (h.ranges :: rest) := by
  intro l member
  obtain rfl := Option.some.inj member
  have first : h.ranges.octets.head? = some 0x40 := rfl
  rw [first]
  decide

theorem unnoted_edits (edits : List Edit) {rest : List Text} (unnoted : Unnoted rest) :
    Unnoted (edits.flatMap (fun e => noted e.marked) ++ rest) := by
  cases edits with
  | nil => exact unnoted
  | cons e later =>
      rw [List.flatMap_cons, List.append_assoc]
      exact unnoted_noted rfl e.mark_plain.2 _

def OfLines (edits : List Edit) : Prop :=
  ∀ e ∈ edits, IsLine e.line

theorem withoutNotes_edits {edits : List Edit} (single : OfLines edits)
    {rest : List Text} (unnoted : Unnoted rest) :
    withoutNotes (edits.flatMap (fun e => noted e.marked) ++ rest) =
      edits.map Edit.marked ++ withoutNotes rest := by
  induction edits with
  | nil => rfl
  | cons e later ih =>
      obtain ⟨here, others⟩ := List.forall_mem_cons.mp single
      rw [List.flatMap_cons, List.append_assoc,
        withoutNotes_noted (Edit.isLine_marked here) (unnoted_edits later unnoted), ih others]
      rfl

/-- Hunks as the reader takes them: the ranges of each, and its marked lines. -/
def readLines (hs : List Hunk) : List Text :=
  hs.flatMap fun h => h.ranges :: h.edits.map Edit.marked

theorem withoutNotes_hunks {hs : List Hunk} (single : ∀ h ∈ hs, OfLines h.edits) :
    withoutNotes (hs.flatMap Hunk.lines) = readLines hs := by
  induction hs with
  | nil => rfl
  | cons h later ih =>
      obtain ⟨here, others⟩ := List.forall_mem_cons.mp single
      have next : Unnoted (later.flatMap Hunk.lines) := by
        cases later with
        | nil => exact fun _ member => nomatch member
        | cons g more => exact unnoted_ranges g _
      rw [List.flatMap_cons, Hunk.lines, List.cons_append,
        withoutNotes_cons _ (unnoted_edits h.edits next), withoutNotes_edits here next, ih others]
      rfl

theorem readHunks?_readLines (hs : List Hunk) : ∀ bound, (readLines hs).length ≤ bound →
    readHunks? bound (readLines hs) = some hs := by
  induction hs with
  | nil =>
      intro bound _
      cases bound <;> rfl
  | cons h later ih =>
      intro bound enough
      obtain ⟨more, rfl⟩ : ∃ more, bound = more + 1 := by
        simp only [readLines, List.flatMap_cons, List.cons_append, List.length_cons] at enough
        exact ⟨bound - 1, by omega⟩
      have rest : (readLines later).length ≤ more := by
        simp only [readLines, List.flatMap_cons, List.cons_append, List.length_cons,
          List.length_append] at enough ⊢
        omega
      have first : readLines (h :: later) =
          h.ranges :: (h.edits.map Edit.marked ++ readLines later) := rfl
      rw [first, readHunks?, readRanges?_ranges]
      simp [readEdits?_marked, ih more rest]

theorem isEndedLine_hunks {hs : List Hunk} (single : ∀ h ∈ hs, OfLines h.edits) :
    ∀ l ∈ hs.flatMap Hunk.lines, IsEndedLine l := by
  intro l member
  obtain ⟨h, inside, here⟩ := List.mem_flatMap.mp member
  rcases List.mem_cons.mp here with rfl | shown
  · exact isEndedLine_ranges h
  · obtain ⟨e, edit, last⟩ := List.mem_flatMap.mp shown
    exact isEndedLine_of_mem_noted (Edit.isLine_marked (single h inside e edit)) l last

/-- Written hunks are read back. -/
theorem readPatch?_join {hs : List Hunk} (single : ∀ h ∈ hs, OfLines h.edits) :
    readPatch? (Text.join (hs.map Hunk.text)) = some hs := by
  have whole : Text.join (hs.map Hunk.text) = Text.join (hs.flatMap Hunk.lines) := by
    rw [← Text.join_map_join]
    exact congrArg Text.join (List.map_congr_left fun h _ => h.text_eq)
  rw [readPatch?, whole, lines_join (isEndedLine_hunks single), withoutNotes_hunks single]
  exact readHunks?_readLines hs _ (Nat.le_refl _)

end LiteralHoist.Patch
