import LiteralHoist.Proofs.Source.Lexeme

/-!
# Literals made from values

A string literal that is made from a value reads back as one literal with this value, and so does a
character literal, unless the value has the mark of character literals: the mark is written as it
is, and ends the literal.
-/

set_option autoImplicit false

namespace LiteralHoist.Source

open Text

def bodyValue? (body : List Char) : Option (List Char) := do
  charsOfUnits? (← unescape? (← codeUnits? (.text false) body))

def InOneLine (source : List Char) : Prop :=
  '\n' ∉ source ∧ '\x0d' ∉ source

theorem InOneLine.append {a b : List Char} (left : InOneLine a) (right : InOneLine b) :
    InOneLine (a ++ b) := by
  constructor
  · intro member
    exact (List.mem_append.mp member).elim left.1 right.1
  · intro member
    exact (List.mem_append.mp member).elim left.2 right.2

theorem hexDigits_inOneLine (width n : Nat) : InOneLine (hexDigits width n) := by
  have digit : ∀ d < 16, InOneLine [Nat.digitChar d] := by
    simp only [InOneLine]
    decide
  induction width generalizing n with
  | zero => exact ⟨List.not_mem_nil, List.not_mem_nil⟩
  | succ width ih => exact (ih _).append (digit _ (Nat.mod_lt _ (by decide)))

theorem escapedChar_inOneLine (c : Char) : InOneLine (escapedChar c) := by
  rcases escapedChar_cases c with
    ⟨l, written, letter⟩ | ⟨_, _, written⟩ | ⟨printable, _, _, written⟩
  · have each : ∀ entry ∈ escapeLetters, InOneLine ['\\', entry.1] := by
      simp only [InOneLine]
      decide
    exact written ▸ each (l, c) letter
  · have start : InOneLine ['\\', 'u'] := by
      simp only [InOneLine]
      decide
    exact written ▸ start.append (hexDigits_inOneLine 4 c.toNat)
  · have notFeed : '\n' ≠ c := by
      rintro rfl
      exact absurd printable (by decide)
    have notReturn : '\x0d' ≠ c := by
      rintro rfl
      exact absurd printable (by decide)
    rw [written, InOneLine]
    simp [notFeed, notReturn]

theorem flatMap_escapedChar_inOneLine (cs : List Char) : InOneLine (cs.flatMap escapedChar) := by
  induction cs with
  | nil => exact ⟨List.not_mem_nil, List.not_mem_nil⟩
  | cons c rest ih => exact (escapedChar_inOneLine c).append ih

theorem bodyValue?_escaped (cs : List Char) :
    bodyValue? (cs.flatMap escapedChar) = some cs := by
  have first : codeUnits? (.text false) (cs.flatMap escapedChar) =
      some (cs.flatMap bodyUnits) := by
    simpa [codeUnits?] using codeUnits?_escaped cs []
  simp [bodyValue?, first, unescape?_escaped, charsOfUnits?_units]

section Marks
variable {mark : Char} (ascii : mark.toNat < 0x80) (notSlash : '\\' ≠ mark)
include ascii notSlash

theorem codeUnits?_between (cs : List Char) :
    codeUnits? (.text false) (mark :: (cs.flatMap escapedChar ++ [mark])) =
      some (mark.toNat :: (cs.flatMap bodyUnits ++ [mark.toNat])) := by
  have small : units mark = [mark.toNat] := units_of_small (by omega)
  rw [codeUnits?_plain notSlash.symm, codeUnits?_escaped, codeUnits?_plain notSlash.symm]
  simp [codeUnits?, small]

/-- Between marks that cannot end it, a written value is one literal. -/
theorem literalValue?_between {cs : List Char} (hidden : mark ∈ cs → mark = '\x22') :
    literalValue? mark (mark :: (cs.flatMap escapedChar ++ [mark])) = some cs := by
  rw [literalValue?, codeUnits?_between ascii notSlash]
  simp [splitAtMark_escaped ascii notSlash hidden, unescape?_escaped, charsOfUnits?_units]

/-- A mark in the value that is written as it is ends the literal before its last mark. -/
theorem literalValue?_cut {cs : List Char} (shown : escapedChar mark = [mark])
    (member : mark ∈ cs) :
    literalValue? mark (mark :: (cs.flatMap escapedChar ++ [mark])) = none := by
  obtain ⟨before, after, rfl, fresh⟩ := List.eq_append_cons_of_mem member
  have asItIs : bodyUnits mark = [mark.toNat] := by
    rw [bodyUnits_of_plain shown, units_of_small (by omega)]
  have ended := splitAtMark_escaped ascii notSlash (fun again => absurd again fresh)
    (after.flatMap bodyUnits ++ [mark.toNat])
  rw [literalValue?, codeUnits?_between ascii notSlash]
  simp [asItIs, ended]

end Marks

/-- A value is read back from its string literal, so different values have different ones. -/
theorem stringLiteral_reads_back :
    (∀ cs : List Char, (stringLiteral (ofChars cs)).IsUnicode ∧
      InOneLine (stringLiteral (ofChars cs)).chars ∧
      literalValue? '\x22' (stringLiteral (ofChars cs)).chars = some cs) ∧
    Function.Injective fun cs : List Char => stringLiteral (ofChars cs) := by
  have written : ∀ cs : List Char, (stringLiteral (ofChars cs)).chars =
      '\x22' :: (cs.flatMap escapedChar ++ ['\x22']) := by
    intro cs
    rw [stringLiteral, chars_ofChars, escaped, chars_ofChars]
  have back : ∀ cs : List Char,
      literalValue? '\x22' (stringLiteral (ofChars cs)).chars = some cs := by
    intro cs
    rw [written]
    exact literalValue?_between (by decide) (by decide) fun _ => rfl
  have mark : InOneLine ['\x22'] := by
    simp only [InOneLine]
    decide
  refine ⟨fun cs => ⟨⟨_, rfl⟩, ?_, back cs⟩, fun a b same => ?_⟩
  · rw [written]
    exact mark.append ((flatMap_escapedChar_inOneLine cs).append mark)
  · have values : some a = some b := by
      rw [← back a, ← back b]
      exact congrArg (fun literal : Text => literalValue? '\x22' literal.chars) same
    exact Option.some.inj values

/-- The escapes of a character literal give the value back, and it is one literal exactly if the
value does not have its mark. -/
theorem charLiteral_reads_back_iff (cs : List Char) (type : Text) :
    (∃ body, (Literal.text { kind := .char, value := ofChars cs, type := type }).chars =
        '\x27' :: (body ++ ['\x27']) ∧ InOneLine body ∧ bodyValue? body = some cs) ∧
      (literalValue? '\x27'
          (Literal.text { kind := .char, value := ofChars cs, type := type }).chars = some cs ↔
        '\x27' ∉ cs) := by
  have written : (Literal.text { kind := .char, value := ofChars cs, type := type }).chars =
      '\x27' :: (cs.flatMap escapedChar ++ ['\x27']) := by
    rw [Literal.text, if_neg (by simp)]
    rw [charLiteral, chars_ofChars, escaped, chars_ofChars]
  refine ⟨⟨_, written, flatMap_escapedChar_inOneLine cs, bodyValue?_escaped cs⟩, ?_⟩
  rw [written]
  constructor
  · intro back member
    have cut := literalValue?_cut (by decide) (by decide) (by decide) member
    rw [back] at cut
    contradiction
  · intro absent
    exact literalValue?_between (by decide) (by decide) fun member => absurd member absent

/-- An apostrophe in a character literal is written without an escape. -/
theorem apostrophe_not_read_back :
    (Literal.text { kind := .char, value := "'" }).chars = ['\x27', '\x27', '\x27'] ∧
      literalValue? '\x27' (Literal.text { kind := .char, value := "'" }).chars ≠
        some ['\x27'] := by
  decide

end LiteralHoist.Source
