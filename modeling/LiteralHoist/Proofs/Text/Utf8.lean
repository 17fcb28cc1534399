import LiteralHoist.Text.Basic
import Mathlib.Data.List.Basic

/-!
# Texts of characters

The letters of a text that was made of characters are these characters, whatever follows the text.
Where a text is made of characters, replacing its stray octets changes nothing.
-/

set_option autoImplicit false

namespace LiteralHoist.Text

section Octets
variable {v : Nat} (rest : List UInt8)

theorem octet_toNat {n : Nat} (small : n < 256) : (UInt8.ofNat n).toNat = n := by
  simpa using small

theorem lettersOf_one (small : v ≤ 127) :
    lettersOf (UInt8.ofNat v :: rest) = .char (Char.ofNat v) :: lettersOf rest := by
  have value := octet_toNat (show v < 256 by omega)
  rw [lettersOf.eq_def]
  simp [UInt8.lt_iff_toNat_lt, value, show v < 128 by omega]

theorem lettersOf_two (large : 127 < v) (small : v ≤ 2047) :
    lettersOf (UInt8.ofNat (v / 64 % 32 + 192) :: UInt8.ofNat (v % 64 + 128) :: rest) =
      .char (Char.ofNat v) :: lettersOf rest := by
  have first := octet_toNat (show v / 64 % 32 + 192 < 256 by omega)
  have second := octet_toNat (show v % 64 + 128 < 256 by omega)
  have whole : (v / 64 % 32 + 192) % 32 * 64 + (v % 64 + 128) % 64 = v := by omega
  rw [lettersOf.eq_def]
  simp only [UInt8.lt_iff_toNat_lt, UInt8.le_iff_toNat_le, isTail, tailBits, first, second, whole]
  rw [if_neg (by simp), if_pos (by simp; omega)]

theorem lettersOf_three (large : 2047 < v) (small : v ≤ 65535)
    (scalar : v < 0xD800 ∨ 0xDFFF < v) :
    lettersOf (UInt8.ofNat (v / 4096 % 16 + 224) :: UInt8.ofNat (v / 64 % 64 + 128) ::
      UInt8.ofNat (v % 64 + 128) :: rest) = .char (Char.ofNat v) :: lettersOf rest := by
  have first := octet_toNat (show v / 4096 % 16 + 224 < 256 by omega)
  have second := octet_toNat (show v / 64 % 64 + 128 < 256 by omega)
  have third := octet_toNat (show v % 64 + 128 < 256 by omega)
  have whole : (v / 4096 % 16 + 224) % 16 * 4096 + (v / 64 % 64 + 128) % 64 * 64 +
      (v % 64 + 128) % 64 = v := by omega
  rw [lettersOf.eq_def]
  simp only [UInt8.lt_iff_toNat_lt, UInt8.le_iff_toNat_le, isTail, opensThree, tailBits, first,
    second, third, whole]
  rw [if_neg (by simp), if_neg (by simp), if_pos]
  simp [← UInt8.toNat_inj]
  omega

theorem lettersOf_four (large : 65535 < v) (small : v ≤ 0x10FFFF) :
    lettersOf (UInt8.ofNat (v / 262144 % 8 + 240) :: UInt8.ofNat (v / 4096 % 64 + 128) ::
      UInt8.ofNat (v / 64 % 64 + 128) :: UInt8.ofNat (v % 64 + 128) :: rest) =
      .char (Char.ofNat v) :: lettersOf rest := by
  have first := octet_toNat (show v / 262144 % 8 + 240 < 256 by omega)
  have second := octet_toNat (show v / 4096 % 64 + 128 < 256 by omega)
  have third := octet_toNat (show v / 64 % 64 + 128 < 256 by omega)
  have fourth := octet_toNat (show v % 64 + 128 < 256 by omega)
  have whole : (v / 262144 % 8 + 240) % 8 * 262144 + (v / 4096 % 64 + 128) % 64 * 4096 +
      (v / 64 % 64 + 128) % 64 * 64 + (v % 64 + 128) % 64 = v := by omega
  rw [lettersOf.eq_def]
  simp only [UInt8.lt_iff_toNat_lt, UInt8.le_iff_toNat_le, isTail, opensFour, tailBits, first,
    second, third, fourth, whole]
  rw [if_neg (by simp), if_neg (by simp), if_neg (by simp), if_pos]
  simp [← UInt8.toNat_inj]
  omega

/-- The octets of a character are read as the character. -/
theorem lettersOf_char (c : Char) :
    lettersOf (String.utf8EncodeChar c ++ rest) = .char c :: lettersOf rest := by
  have same : Char.ofNat c.val.toNat = c := Char.ofNat_toNat c
  have valid : c.val.toNat < 0xD800 ∨ 0xDFFF < c.val.toNat ∧ c.val.toNat < 0x110000 := c.valid
  simp only [String.utf8EncodeChar]
  split
  · rw [List.singleton_append, lettersOf_one rest (by assumption), same]
  split
  · rw [List.cons_append, List.singleton_append, lettersOf_two rest (by omega) (by assumption),
      same]
  split
  · rw [List.cons_append, List.cons_append, List.singleton_append,
      lettersOf_three rest (by omega) (by assumption) (by omega), same]
  · rw [List.cons_append, List.cons_append, List.cons_append, List.singleton_append,
      lettersOf_four rest (by omega) (by omega), same]

end Octets

theorem encodeChar_ascii {c : Char} (ascii : c.toNat < 128) :
    String.utf8EncodeChar c = [UInt8.ofNat c.toNat] := by
  rw [String.utf8EncodeChar]
  exact if_pos (Nat.le_of_lt_succ ascii)

theorem le_octet {c : Char} (beyond : 128 ≤ c.toNat) {b : UInt8}
    (member : b ∈ String.utf8EncodeChar c) : 128 ≤ b.toNat := by
  have large : ¬ c.val.toNat ≤ 127 := Nat.not_le_of_gt beyond
  simp only [String.utf8EncodeChar, if_neg large] at member
  split at member
  · simp only [List.mem_cons, List.not_mem_nil, or_false] at member
    rcases member with rfl | rfl <;> rw [octet_toNat (by omega)] <;> omega
  split at member
  · simp only [List.mem_cons, List.not_mem_nil, or_false] at member
    rcases member with rfl | rfl | rfl <;> rw [octet_toNat (by omega)] <;> omega
  · simp only [List.mem_cons, List.not_mem_nil, or_false] at member
    rcases member with rfl | rfl | rfl | rfl <;> rw [octet_toNat (by omega)] <;> omega

theorem letters_ofChars (cs : List Char) : (ofChars cs).letters = cs.map .char := by
  induction cs with
  | nil => simp [letters, ofChars, lettersOf]
  | cons c rest ih =>
      simp only [letters, ofChars, List.flatMap_cons, List.map_cons] at ih ⊢
      rw [lettersOf_char, ih]

theorem chars_ofChars (cs : List Char) : (ofChars cs).chars = cs := by
  simp [chars, letters_ofChars, Function.comp_def, Letter.toChar]

def IsUnicode (s : Text) : Prop :=
  ∃ cs, s = ofChars cs

theorem isUnicode_ofString (s : String) : (ofString s).IsUnicode :=
  ⟨_, rfl⟩

theorem IsUnicode.ofChars_chars {s : Text} (unicode : s.IsUnicode) : ofChars s.chars = s := by
  obtain ⟨cs, rfl⟩ := unicode
  rw [chars_ofChars]

instance (s : Text) : Decidable s.IsUnicode :=
  decidable_of_iff (ofChars s.chars = s) ⟨fun same => ⟨_, same.symm⟩, IsUnicode.ofChars_chars⟩

end LiteralHoist.Text
