import LiteralHoist.Proofs.Patch.Hunk
import LiteralHoist.Proofs.Patch.Line
import LiteralHoist.Proofs.Text.Join
import LiteralHoist.Proofs.Text.Utf8

/-!
# Reading patches

A patch is read line by line.  A line that starts with a backslash says that the line before it is
not ended.  The first line of a hunk gives two ranges, and as many lines follow as the ranges count
on the two sides, each behind the mark of its edit.  Written hunks are read back.
-/

set_option autoImplicit false

namespace LiteralHoist.Patch

open Text

def readNumber? (cs : List Char) : Option (Nat × List Char) :=
  let digits := cs.takeWhile Char.isDigit
  if digits.isEmpty then none
  else some (Nat.ofDigitChars 10 digits 0, cs.dropWhile Char.isDigit)

/-- The number of lines before a range, from its first line or, if it is empty, the line before. -/
def linesBefore? (first count : Nat) : Option Nat :=
  if count = 0 then some first else if first = 0 then none else some (first - 1)

def readRange? (cs : List Char) : Option ((Nat × Nat) × List Char) := do
  let (first, rest) ← readNumber? cs
  match rest with
  | ',' :: more => do
    let (count, rest) ← readNumber? more
    return ((← linesBefore? first count, count), rest)
  | _ => return ((← linesBefore? first 1, 1), rest)

def readRanges? (line : Text) : Option ((Nat × Nat) × (Nat × Nat)) := do
  match line.chars with
  | '@' :: '@' :: ' ' :: '-' :: cs => do
    let (old, rest) ← readRange? cs
    match rest with
    | ' ' :: '+' :: cs => do
      let (new, rest) ← readRange? cs
      if rest = [' ', '@', '@', '\n'] then return (old, new) else none
    | _ => none
  | _ => none

def withoutNotes : List Text → List Text
  | [] => []
  | [line] => [line]
  | line :: next :: rest =>
    if next.octets.head? = some 0x5C then content line :: withoutNotes rest
    else line :: withoutNotes (next :: rest)

/-- The edits that take and give as many lines as are left on the two sides. -/
def readEdits? : Nat → Nat → List Text → Option (List Edit × List Text)
  | 0, 0, rest => some ([], rest)
  | _, _, [] => none
  | oldLeft, newLeft, line :: rest =>
    match line.octets with
    | 0x20 :: shown =>
      if oldLeft = 0 ∨ newLeft = 0 then none
      else (readEdits? (oldLeft - 1) (newLeft - 1) rest).map (Prod.map (.keep ⟨shown⟩ :: ·) id)
    | 0x2D :: shown =>
      if oldLeft = 0 then none
      else (readEdits? (oldLeft - 1) newLeft rest).map (Prod.map (.delete ⟨shown⟩ :: ·) id)
    | 0x2B :: shown =>
      if newLeft = 0 then none
      else (readEdits? oldLeft (newLeft - 1) rest).map (Prod.map (.insert ⟨shown⟩ :: ·) id)
    | _ => none

def readHunks? : Nat → List Text → Option (List Hunk)
  | _, [] => some []
  | 0, _ => none
  | bound + 1, line :: rest => do
    let ((oldStart, oldCount), (newStart, newCount)) ← readRanges? line
    let (edits, rest) ← readEdits? oldCount newCount rest
    return ⟨oldStart, newStart, edits⟩ :: (← readHunks? bound rest)

def readPatch? (patch : Text) : Option (List Hunk) :=
  let ls := withoutNotes (lines patch)
  readHunks? ls.length ls

/-- Carries a patch out on a text. -/
def patched? (patch old : Text) : Option Text := do
  return Text.join (← applyHunks 0 0 (← readPatch? patch) (lines old))

def unpatched? (patch new : Text) : Option Text := do
  return Text.join (← applyHunks 0 0 ((← readPatch? patch).map Hunk.reversed) (lines new))

theorem readNumber?_toDigits (n : Nat) {rest : List Char}
    (ends : ∀ c more, rest = c :: more → c.isDigit = false) :
    readNumber? (Nat.toDigits 10 n ++ rest) = some (n, rest) := by
  have all : ∀ c ∈ Nat.toDigits 10 n, c.isDigit = true :=
    fun c member => Nat.isDigit_of_mem_toDigits (by decide) (by decide) member
  have none : rest.takeWhile Char.isDigit = [] ∧ rest.dropWhile Char.isDigit = rest := by
    cases rest with
    | nil => exact ⟨rfl, rfl⟩
    | cons c more => simp [ends c more rfl]
  have taken : (Nat.toDigits 10 n ++ rest).takeWhile Char.isDigit = Nat.toDigits 10 n := by
    rw [List.takeWhile_append_of_pos all, none.1, List.append_nil]
  have dropped : (Nat.toDigits 10 n ++ rest).dropWhile Char.isDigit = rest := by
    rw [List.dropWhile_append_of_pos all, none.2]
  have some : Nat.toDigits 10 n ≠ [] := Nat.toDigits_ne_nil
  simp only [readNumber?, taken, dropped, List.isEmpty_iff, some, if_false,
    Nat.ofDigitChars_ten_toDigits]

def rangeChars (start count : Nat) : List Char :=
  if count = 0 then Nat.toDigits 10 start ++ [',', '0']
  else if count = 1 then Nat.toDigits 10 (start + 1)
  else Nat.toDigits 10 (start + 1) ++ ',' :: Nat.toDigits 10 count

theorem ofString_toString (n : Nat) : ofString (toString n) = ofChars (Nat.toDigits 10 n) := by
  simp [ofString]

theorem rangeText_eq (start count : Nat) :
    rangeText start count = ofChars (rangeChars start count) := by
  unfold rangeText rangeChars
  split
  · rw [ofString_toString, ofChars_append]
    rfl
  · split
    · exact ofString_toString _
    · rw [ofString_toString, ofString_toString, List.append_cons, ofChars_append, ofChars_append]
      rfl

theorem readRange?_rangeChars (start count : Nat) (rest : List Char) :
    readRange? (rangeChars start count ++ ' ' :: rest) = some ((start, count), ' ' :: rest) := by
  have blank : ∀ c more, ' ' :: rest = c :: more → c.isDigit = false := by
    rintro c more ⟨⟩
    rfl
  have comma (later : List Char) : ∀ c more, ',' :: later = c :: more → c.isDigit = false := by
    rintro c more ⟨⟩
    rfl
  unfold rangeChars
  split
  · rename_i zero
    have second : readNumber? ('0' :: ' ' :: rest) = some (0, ' ' :: rest) :=
      readNumber?_toDigits 0 blank
    rw [readRange?, List.append_assoc, List.cons_append, readNumber?_toDigits start (comma _)]
    simp [second, linesBefore?, zero]
  · split
    · rename_i one
      rw [readRange?, readNumber?_toDigits (start + 1) blank]
      simp [linesBefore?, one]
    · rename_i some _
      rw [readRange?, List.append_assoc, List.cons_append,
        readNumber?_toDigits (start + 1) (comma _)]
      simp [readNumber?_toDigits count blank, linesBefore?, some]

def Hunk.rangesChars (h : Hunk) : List Char :=
  ['@', '@', ' ', '-'] ++ rangeChars h.oldStart (oldLines h.edits).length ++ [' ', '+'] ++
    rangeChars h.newStart (newLines h.edits).length ++ [' ', '@', '@']

def Hunk.ranges (h : Hunk) : Text :=
  ofChars (h.rangesChars ++ ['\n'])

theorem readRanges?_ranges (h : Hunk) : readRanges? h.ranges =
    some ((h.oldStart, (oldLines h.edits).length), (h.newStart, (newLines h.edits).length)) := by
  have old := readRange?_rangeChars h.oldStart (oldLines h.edits).length
    ('+' :: (rangeChars h.newStart (newLines h.edits).length ++ [' ', '@', '@', '\n']))
  have new := readRange?_rangeChars h.newStart (newLines h.edits).length ['@', '@', '\n']
  rw [readRanges?, Hunk.ranges, chars_ofChars]
  simp [Hunk.rangesChars, old, new]

end LiteralHoist.Patch
