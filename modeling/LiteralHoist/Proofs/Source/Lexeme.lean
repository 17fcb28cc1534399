import LiteralHoist.Proofs.Json.Scan
import LiteralHoist.Source.Literal
import LiteralHoist.Text.Units
import Mathlib.Data.List.Basic

/-!
# Reading literals

The source language reads a text in two stages.  The characters become code units, where a
backslash that an even number of backslashes precedes may start an escape that names a code unit.
Then a literal lasts from its mark to the next mark that is not escaped, in the same line, and the
escapes in it are replaced.

Written characters of a value pass both stages: `escapedChar` goes to `bodyUnits`, and these go back
to the code units of the character.
-/

set_option autoImplicit false

namespace LiteralHoist

namespace Text

def units (c : Char) : List Nat :=
  if c.toNat < 0x10000 then [c.toNat]
  else [0xD800 + (c.toNat - 0x10000) / 0x400, 0xDC00 + (c.toNat - 0x10000) % 0x400]

theorem units_of_small {c : Char} (small : c.toNat < 0x10000) : units c = [c.toNat] :=
  if_pos small

theorem charsOfUnits?_cons {n : Nat} (notHigh : isHighHalf n = false)
    (notLow : isLowHalf n = false) (rest : List Nat) :
    charsOfUnits? (n :: rest) = (charsOfUnits? rest).map (Char.ofNat n :: ·) := by
  cases rest with
  | nil => simp [charsOfUnits?, notHigh, notLow]
  | cons m more => simp [charsOfUnits?, notHigh, notLow]

theorem charsOfUnits?_units (cs : List Char) : charsOfUnits? (cs.flatMap units) = some cs := by
  induction cs with
  | nil => rfl
  | cons c rest ih =>
      have valid : c.toNat < 0xD800 ∨ 0xDFFF < c.toNat ∧ c.toNat < 0x110000 := c.valid
      have same : Char.ofNat c.toNat = c := Char.ofNat_toNat c
      rw [List.flatMap_cons, units]
      split
      · have notHigh : isHighHalf c.toNat = false := by
          simp only [isHighHalf, Bool.and_eq_false_iff, decide_eq_false_iff_not]
          omega
        have notLow : isLowHalf c.toNat = false := by
          simp only [isLowHalf, Bool.and_eq_false_iff, decide_eq_false_iff_not]
          omega
        rw [List.singleton_append, charsOfUnits?_cons notHigh notLow, ih, same]
        rfl
      · have high : isHighHalf (0xD800 + (c.toNat - 0x10000) / 0x400) = true := by
          simp only [isHighHalf, Bool.and_eq_true, decide_eq_true_eq]
          omega
        have low : isLowHalf (0xDC00 + (c.toNat - 0x10000) % 0x400) = true := by
          simp only [isLowHalf, Bool.and_eq_true, decide_eq_true_eq]
          omega
        have paired : pairedChar (0xD800 + (c.toNat - 0x10000) / 0x400)
            (0xDC00 + (c.toNat - 0x10000) % 0x400) = c := by
          rw [pairedChar]
          refine Eq.trans (congrArg Char.ofNat ?_) same
          omega
        simp [charsOfUnits?, high, low, paired, ih]

/-- No code unit of a character is an ASCII character, unless it is this character. -/
theorem eq_of_mem_units {c : Char} {n : Nat} (member : n ∈ units c) (ascii : n < 0x80) :
    c.toNat = n := by
  rw [units] at member
  split at member
  · exact (List.mem_singleton.mp member).symm
  · simp only [List.mem_cons, List.not_mem_nil, or_false] at member
    omega

end Text

namespace Source

open Text

def backslash : Nat := 0x5C

/-- Where the first stage is: in text, where `odd` says whether an odd number of backslashes stands
right before, after the letter of an escape, or among its digits, of which more than one may be
left. -/
inductive Reading where
  | text (odd : Bool)
  | named
  | digits (left value : Nat)

/-- The code units of characters.  The escape of a code unit is a backslash, letters `u`, and four
hexadecimal digits. -/
def codeUnits? : Reading → List Char → Option (List Nat)
  | .text _, [] => some []
  | .text odd, c :: rest =>
    if c = '\\' then
      if !odd && rest.head? = some 'u' then codeUnits? .named rest
      else (codeUnits? (.text !odd) rest).map (backslash :: ·)
    else (codeUnits? (.text false) rest).map (units c ++ ·)
  | .named, c :: rest =>
    if c = 'u' then codeUnits? .named rest
    else do
      let digit ← Json.hexValue? c
      codeUnits? (.digits 2 digit) rest
  | .digits left value, c :: rest => do
    let digit ← Json.hexValue? c
    let value := value * 16 + digit
    if left = 0 then (codeUnits? (.text false) rest).map (value :: ·)
    else codeUnits? (.digits (left - 1) value) rest
  | .named, [] => none
  | .digits _ _, [] => none

def endsLine (unit : Nat) : Bool :=
  unit = 0x0A || unit = 0x0D

/-- What stands before the first mark that is not escaped, and what stands after it; there is none
behind the end of the line. -/
def splitAtMark (mark : Nat) : List Nat → Option (List Nat × List Nat)
  | [] => none
  | unit :: rest =>
    if unit = mark then some ([], rest)
    else if endsLine unit then none
    else if unit = backslash then
      match rest with
      | [] => none
      | next :: more =>
        if endsLine next then none
        else (splitAtMark mark more).map fun (body, after) => (unit :: next :: body, after)
    else (splitAtMark mark rest).map fun (body, after) => (unit :: body, after)

def escapeLetters : List (Char × Char) :=
  [('b', '\x08'), ('t', '\t'), ('n', '\n'), ('f', '\x0c'), ('r', '\x0d'), ('\x22', '\x22'),
    ('\x27', '\x27'), ('\\', '\\')]

def escapeValue? (letter : Nat) : Option Nat :=
  (escapeLetters.find? fun entry => entry.1.toNat = letter).map fun entry => entry.2.toNat

def unescape? : List Nat → Option (List Nat)
  | [] => some []
  | unit :: rest =>
    if unit = backslash then
      match rest with
      | [] => none
      | letter :: more => do
        let value ← escapeValue? letter
        (unescape? more).map (value :: ·)
    else (unescape? rest).map (unit :: ·)

/-- The value of a source text that is one literal between two marks and nothing else. -/
def literalValue? (mark : Char) (source : List Char) : Option (List Char) := do
  match ← codeUnits? (.text false) source with
  | [] => none
  | first :: rest =>
    if first = mark.toNat then
      match ← splitAtMark mark.toNat rest with
      | (body, []) => charsOfUnits? (← unescape? body)
      | _ => none
    else none

/-- How a character of a value is written: by a letter, by its code unit, or as it is. -/
theorem escapedChar_cases (c : Char) :
    (∃ l : Char, escapedChar c = ['\\', l] ∧ (l, c) ∈ escapeLetters) ∨
      (c.toNat < 0x20 ∧ endsLine c.toNat = false ∧
        escapedChar c = '\\' :: 'u' :: hexDigits 4 c.toNat) ∨
      (0x20 ≤ c.toNat ∧ c ≠ '\\' ∧ c ≠ '\x22' ∧ escapedChar c = [c]) := by
  unfold escapedChar
  split_ifs with quote slash feed ret tab back form control
  · exact .inl ⟨_, rfl, by subst quote; decide⟩
  · exact .inl ⟨_, rfl, by subst slash; decide⟩
  · exact .inl ⟨_, rfl, by subst feed; decide⟩
  · exact .inl ⟨_, rfl, by subst ret; decide⟩
  · exact .inl ⟨_, rfl, by subst tab; decide⟩
  · exact .inl ⟨_, rfl, by subst back; decide⟩
  · exact .inl ⟨_, rfl, by subst form; decide⟩
  · refine .inr (.inl ⟨control, ?_, rfl⟩)
    have notFeed : c.toNat ≠ 0x0A := fun same => feed (Char.toNat_inj.mp same)
    have notReturn : c.toNat ≠ 0x0D := fun same => ret (Char.toNat_inj.mp same)
    simp [endsLine, notFeed, notReturn]
  · exact .inr (.inr ⟨Nat.le_of_not_lt control, slash, quote, rfl⟩)

theorem escapeLetters_spec {l c : Char} (letter : (l, c) ∈ escapeLetters) :
    l.toNat < 0x80 ∧ l ≠ 'u' ∧ endsLine l.toNat = false ∧ c.toNat < 0x80 ∧
      escapeValue? l.toNat = some c.toNat := by
  have each : ∀ entry ∈ escapeLetters, entry.1.toNat < 0x80 ∧ entry.1 ≠ 'u' ∧
      endsLine entry.1.toNat = false ∧ entry.2.toNat < 0x80 ∧
        escapeValue? entry.1.toNat = some entry.2.toNat := by
    decide
  exact each (l, c) letter

def bodyUnits (c : Char) : List Nat :=
  match escapedChar c with
  | ['\\', l] => [backslash, l.toNat]
  | _ => units c

theorem bodyUnits_of_letter {c l : Char} (written : escapedChar c = ['\\', l]) :
    bodyUnits c = [backslash, l.toNat] := by
  simp [bodyUnits, written]

theorem bodyUnits_of_named {c : Char}
    (written : escapedChar c = '\\' :: 'u' :: hexDigits 4 c.toNat) : bodyUnits c = units c := by
  simp [bodyUnits, written, hexDigits]

theorem bodyUnits_of_plain {c : Char} (written : escapedChar c = [c]) :
    bodyUnits c = units c := by
  simp [bodyUnits, written]

theorem bodyUnits_cases (c : Char) :
    (∃ l : Char, (l, c) ∈ escapeLetters ∧ bodyUnits c = [backslash, l.toNat]) ∨
      (c ≠ '\x22' ∧ bodyUnits c = units c ∧ ∀ n ∈ units c, n ≠ backslash ∧ endsLine n = false) := by
  rcases escapedChar_cases c with ⟨l, written, letter⟩ | ⟨control, sameLine, written⟩ |
    ⟨printable, notSlash, notQuote, written⟩
  · exact .inl ⟨l, letter, bodyUnits_of_letter written⟩
  · right
    refine ⟨?_, bodyUnits_of_named written, ?_⟩
    · rintro rfl
      exact absurd control (by decide)
    · intro n member
      rw [units_of_small (by omega), List.mem_singleton] at member
      refine ⟨?_, member ▸ sameLine⟩
      rw [member, backslash]
      omega
  · right
    refine ⟨notQuote, bodyUnits_of_plain written, ?_⟩
    intro n member
    refine ⟨?_, ?_⟩
    · rintro rfl
      exact notSlash (Char.toNat_inj.mp (eq_of_mem_units member (by decide)))
    · by_cases ascii : n < 0x80
      · have same := eq_of_mem_units member ascii
        simp only [endsLine, Bool.or_eq_false_iff, decide_eq_false_iff_not]
        omega
      · simp only [endsLine, Bool.or_eq_false_iff, decide_eq_false_iff_not]
        omega

theorem codeUnits?_plain {c : Char} (notSlash : c ≠ '\\') (odd : Bool) (rest : List Char) :
    codeUnits? (.text odd) (c :: rest) =
      (codeUnits? (.text false) rest).map (units c ++ ·) := by
  rw [codeUnits?, if_neg notSlash]

/-- A backslash and a letter other than `u` name no code unit, whatever comes after them. -/
theorem codeUnits?_letter {l : Char} (ascii : l.toNat < 0x80) (unnamed : l ≠ 'u')
    (rest : List Char) : codeUnits? (.text false) ('\\' :: l :: rest) =
      (codeUnits? (.text false) rest).map ([backslash, l.toNat] ++ ·) := by
  rw [codeUnits?, if_pos rfl, if_neg (by simpa using unnamed)]
  by_cases slash : l = '\\'
  · subst slash
    rw [Bool.not_false, codeUnits?, if_pos rfl, if_neg (by simp), Option.map_map]
    rfl
  · rw [codeUnits?_plain slash, units_of_small (by omega), Option.map_map]
    rfl

theorem codeUnits?_hexDigits {n : Nat} (small : n < 0x10000) (rest : List Char) :
    codeUnits? (.text false) ('\\' :: 'u' :: (hexDigits 4 n ++ rest)) =
      (codeUnits? (.text false) rest).map (n :: ·) := by
  have digit : ∀ k, Json.hexValue? (Nat.digitChar (k % 16)) = some (k % 16) :=
    fun k => Json.hexValue_digitChar _ (Nat.mod_lt _ (by decide))
  have notMark : ∀ d < 16, Nat.digitChar d ≠ 'u' := by decide
  have whole : (((n / 16 / 16 / 16 % 16) * 16 + n / 16 / 16 % 16) * 16 + n / 16 % 16) * 16 +
      n % 16 = n := by omega
  have first := notMark (n / 16 / 16 / 16 % 16) (Nat.mod_lt _ (by decide))
  simp [codeUnits?, hexDigits, digit, first, whole]

theorem codeUnits?_escapedChar (c : Char) (rest : List Char) :
    codeUnits? (.text false) (escapedChar c ++ rest) =
      (codeUnits? (.text false) rest).map (bodyUnits c ++ ·) := by
  rcases escapedChar_cases c with ⟨l, written, letter⟩ | ⟨control, _, written⟩ |
    ⟨_, notSlash, _, written⟩
  · obtain ⟨ascii, unnamed, _⟩ := escapeLetters_spec letter
    rw [bodyUnits_of_letter written, written]
    exact codeUnits?_letter ascii unnamed rest
  · rw [bodyUnits_of_named written, units_of_small (by omega), written]
    exact codeUnits?_hexDigits (by omega) rest
  · rw [bodyUnits_of_plain written, written]
    exact codeUnits?_plain notSlash false rest

theorem codeUnits?_escaped (cs rest : List Char) :
    codeUnits? (.text false) (cs.flatMap escapedChar ++ rest) =
      (codeUnits? (.text false) rest).map (cs.flatMap bodyUnits ++ ·) := by
  induction cs with
  | nil => simp
  | cons c more ih =>
      rw [List.flatMap_cons, List.append_assoc, codeUnits?_escapedChar, ih, Option.map_map]
      simp [Function.comp_def]

theorem splitAtMark_append {mark : Nat} {body : List Nat} (rest : List Nat)
    (inside : ∀ n ∈ body, n ≠ mark ∧ n ≠ backslash ∧ endsLine n = false) :
    splitAtMark mark (body ++ rest) =
      (splitAtMark mark rest).map (Prod.map (body ++ ·) id) := by
  induction body with
  | nil =>
      have same : Prod.map (fun us : List Nat => [] ++ us) (id : List Nat → List Nat) = id := by
        funext pair
        rfl
      rw [List.nil_append, same, Option.map_id]
      rfl
  | cons n more ih =>
      obtain ⟨⟨notMark, notSlash, sameLine⟩, later⟩ := List.forall_mem_cons.mp inside
      rw [List.cons_append, splitAtMark.eq_def]
      simp only [notMark, notSlash, sameLine, if_false, Bool.false_eq_true, ih later,
        Option.map_map]
      rfl

theorem splitAtMark_escape {mark l : Nat} (notSlash : backslash ≠ mark)
    (sameLine : endsLine l = false) (rest : List Nat) :
    splitAtMark mark ([backslash, l] ++ rest) =
      (splitAtMark mark rest).map (Prod.map ([backslash, l] ++ ·) id) := by
  rw [List.cons_append, splitAtMark.eq_def]
  simp only [if_neg notSlash, show endsLine backslash = false by decide, Bool.false_eq_true,
    if_false, if_true, List.cons_append, List.nil_append, sameLine]
  rfl

/-- A character of a value does not end a literal, unless it is a mark that is written as it is. -/
theorem splitAtMark_bodyUnits {mark c : Char} (ascii : mark.toNat < 0x80) (notSlash : '\\' ≠ mark)
    (hidden : c = mark → mark = '\x22') (rest : List Nat) :
    splitAtMark mark.toNat (bodyUnits c ++ rest) =
      (splitAtMark mark.toNat rest).map (Prod.map (bodyUnits c ++ ·) id) := by
  rcases bodyUnits_cases c with ⟨l, letter, written⟩ | ⟨notQuote, written, inside⟩
  · have different : backslash ≠ mark.toNat := fun same => notSlash (Char.toNat_inj.mp same)
    rw [written]
    exact splitAtMark_escape different (escapeLetters_spec letter).2.2.1 rest
  · rw [written]
    refine splitAtMark_append rest fun n member => ⟨?_, inside n member⟩
    rintro rfl
    have same : c = mark := Char.toNat_inj.mp (eq_of_mem_units member ascii)
    exact notQuote (same.trans (hidden same))

theorem splitAtMark_escaped {mark : Char} (ascii : mark.toNat < 0x80) (notSlash : '\\' ≠ mark)
    {cs : List Char} (hidden : mark ∈ cs → mark = '\x22') (rest : List Nat) :
    splitAtMark mark.toNat (cs.flatMap bodyUnits ++ mark.toNat :: rest) =
      some (cs.flatMap bodyUnits, rest) := by
  induction cs with
  | nil =>
      rw [List.flatMap_nil, List.nil_append, splitAtMark.eq_def]
      simp
  | cons c more ih =>
      have here : c = mark → mark = '\x22' := by
        rintro rfl
        exact hidden List.mem_cons_self
      rw [List.flatMap_cons, List.append_assoc, splitAtMark_bodyUnits ascii notSlash here,
        ih fun member => hidden (List.mem_cons_of_mem _ member)]
      rfl

theorem unescape?_append {body : List Nat} (inside : ∀ n ∈ body, n ≠ backslash)
    (rest : List Nat) : unescape? (body ++ rest) = (unescape? rest).map (body ++ ·) := by
  induction body with
  | nil => simp
  | cons n more ih =>
      obtain ⟨notSlash, later⟩ := List.forall_mem_cons.mp inside
      rw [List.cons_append, unescape?.eq_def]
      simp only [notSlash, if_false, ih later, Option.map_map]
      rfl

theorem unescape?_escaped (cs : List Char) :
    unescape? (cs.flatMap bodyUnits) = some (cs.flatMap units) := by
  induction cs with
  | nil => rfl
  | cons c more ih =>
      rw [List.flatMap_cons, List.flatMap_cons]
      rcases bodyUnits_cases c with ⟨l, letter, written⟩ | ⟨_, written, inside⟩
      · obtain ⟨_, _, _, ascii, value⟩ := escapeLetters_spec letter
        rw [written, List.cons_append, unescape?.eq_def]
        simp [value, ih, units_of_small (show c.toNat < 0x10000 by omega)]
      · rw [written, unescape?_append (fun n member => (inside n member).1), ih]
        rfl

end Source

end LiteralHoist
