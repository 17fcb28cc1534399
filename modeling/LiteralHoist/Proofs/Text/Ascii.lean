import LiteralHoist.Proofs.Text.Utf8
import Mathlib

/-!
# ASCII octets

An ASCII octet is a character of its own: it ends whatever is unfinished before it, and no other
octets are read as its character.  So a text can be divided at an ASCII character before or after it
is read.
-/

set_option autoImplicit false

namespace LiteralHoist.Text

theorem isTail_of_ascii {b : UInt8} (ascii : b < 0x80) : isTail b = false := by
  rw [isTail, Bool.and_eq_false_iff, decide_eq_false_iff_not]
  exact .inl (UInt8.not_le.mpr ascii)

theorem lettersOf_ascii {b : UInt8} (ascii : b < 0x80) (rest : List UInt8) :
    lettersOf (b :: rest) = .char (Char.ofNat b.toNat) :: lettersOf rest := by
  rw [lettersOf.eq_def]
  simp [ascii]

/-- An octet that opens no character is a stray one. -/
theorem lettersOf_stray {a : UInt8} {rest : List UInt8} (large : ¬ a < 0x80)
    (two : ∀ b tail, rest = b :: tail → (0xC2 ≤ a && a ≤ 0xDF && isTail b) = false)
    (three : ∀ b c tail, rest = b :: c :: tail →
      (0xE0 ≤ a && a ≤ 0xEF && opensThree a b && isTail c) = false)
    (four : ∀ b c d tail, rest = b :: c :: d :: tail →
      (0xF0 ≤ a && a ≤ 0xF4 && opensFour a b && isTail c && isTail d) = false) :
    lettersOf (a :: rest) = .stray a :: lettersOf rest := by
  rw [lettersOf.eq_def]
  rcases rest with _ | ⟨b, _ | ⟨c, _ | ⟨d, tail⟩⟩⟩
  · simp [large, lettersOf]
  · simp [large, two b [] rfl]
  · simp [large, two b [c] rfl, three b c [] rfl]
  · simp only [large, if_false, two b _ rfl, three b c _ rfl, four b c d tail rfl,
      Bool.false_eq_true]

/-- An ASCII octet is a character of its own, whatever stands before it. -/
theorem lettersOf_append_ascii {b : UInt8} (ascii : b < 0x80) (rest : List UInt8)
    (before : List UInt8) : lettersOf (before ++ b :: rest) =
      lettersOf before ++ .char (Char.ofNat b.toNat) :: lettersOf rest := by
  have noTail := isTail_of_ascii ascii
  -- The cases of stray octets are those that could change: what is appended could complete them,
  -- but its first octet continues no character.
  induction before using lettersOf.induct with
  | case1 => rw [List.nil_append, lettersOf_ascii ascii, lettersOf.eq_def []]; rfl
  | case2 a before small ih =>
      rw [List.cons_append, lettersOf_ascii small, ih, lettersOf_ascii small, List.cons_append]
  | case3 a large =>
      rw [List.singleton_append, lettersOf_stray large, lettersOf_ascii ascii,
        lettersOf_stray large]
      · rfl
      · simp
      · simp
      · simp
      · rintro _ _ ⟨⟩; simp [noTail]
      · rintro _ _ _ ⟨⟩; simp [opensThree, noTail]
      · rintro _ _ _ _ ⟨⟩; simp [opensFour, noTail]
  | case4 a large b₁ before two ih =>
      rw [lettersOf.eq_def, lettersOf.eq_def (a :: b₁ :: before)]
      simp only [List.cons_append, large, if_false, two, if_true, ih]
  | case5 a large b₁ two ih =>
      rw [List.cons_append, lettersOf_stray large, ih, lettersOf_stray large]
      · rfl
      · rintro _ _ ⟨⟩; simpa using two
      · simp
      · simp
      · rintro _ _ ⟨⟩; simpa using two
      · rintro _ _ _ ⟨⟩; simp [noTail]
      · rintro _ _ _ _ ⟨⟩; simp [noTail]
  | case6 a large b₁ two b₂ before three ih =>
      rw [lettersOf.eq_def, lettersOf.eq_def (a :: b₁ :: b₂ :: before)]
      simp only [List.cons_append, large, if_false, two, three, if_true, ih, Bool.false_eq_true]
  | case7 a large b₁ two b₂ three ih =>
      rw [List.cons_append, lettersOf_stray large, ih, lettersOf_stray large]
      · rfl
      · rintro _ _ ⟨⟩; simpa using two
      · rintro _ _ _ ⟨⟩; simpa using three
      · simp
      · rintro _ _ ⟨⟩; simpa using two
      · rintro _ _ _ ⟨⟩; simpa using three
      · rintro _ _ _ _ ⟨⟩; simp [noTail]
  | case8 a large b₁ two b₂ three b₃ before four ih =>
      rw [lettersOf.eq_def, lettersOf.eq_def (a :: b₁ :: b₂ :: b₃ :: before)]
      simp only [List.cons_append, large, if_false, two, three, four, if_true, ih,
        Bool.false_eq_true]
  | case9 a large b₁ two b₂ three b₃ before four ih =>
      rw [List.cons_append, lettersOf_stray large, ih, lettersOf_stray large]
      · rfl
      all_goals rintro _ _
      · rintro ⟨⟩; simpa using two
      · rintro _ ⟨⟩; simpa using three
      · rintro _ _ ⟨⟩; simpa using four
      · rintro ⟨⟩; simpa using two
      · rintro _ ⟨⟩; simpa using three
      · rintro _ _ ⟨⟩; simpa using four

theorem ne_ofNat {c : Char} (ascii : c.toNat < 128) (positive : 0 < c.toNat) {v : Nat}
    (large : 128 ≤ v) : c ≠ Char.ofNat v := by
  rintro rfl
  rw [Char.toNat_ofNat] at ascii positive
  split at ascii
  · omega
  · rename_i invalid
    rw [if_neg invalid] at positive
    omega

/-- The code points that two, three and four octets encode are not those of ASCII characters. -/
theorem codePoint_two {a b : UInt8} (two : (0xC2 ≤ a && a ≤ 0xDF && isTail b) = true) :
    128 ≤ a.toNat % 32 * 64 + tailBits b := by
  simp only [UInt8.le_iff_toNat_le, Bool.and_eq_true, decide_eq_true_eq] at two
  have low : 194 ≤ a.toNat := two.1.1
  have high : a.toNat ≤ 223 := two.1.2
  omega

theorem codePoint_three {a b c : UInt8}
    (three : (0xE0 ≤ a && a ≤ 0xEF && opensThree a b && isTail c) = true) :
    128 ≤ a.toNat % 16 * 4096 + tailBits b * 64 + tailBits c := by
  simp [UInt8.le_iff_toNat_le, opensThree, isTail, ← UInt8.toNat_inj] at three
  simp only [tailBits]
  omega

theorem codePoint_four {a b c d : UInt8}
    (four : (0xF0 ≤ a && a ≤ 0xF4 && opensFour a b && isTail c && isTail d) = true) :
    128 ≤ a.toNat % 8 * 262144 + tailBits b * 4096 + tailBits c * 64 + tailBits d := by
  simp [UInt8.le_iff_toNat_le, opensFour, isTail, ← UInt8.toNat_inj] at four
  simp only [tailBits]
  omega

/-- A letter that is an ASCII character is an octet of the text. -/
theorem mem_of_ascii_letter {c : Char} (ascii : c.toNat < 128) (positive : 0 < c.toNat)
    (octets : List UInt8) (member : .char c ∈ lettersOf octets) : UInt8.ofNat c.toNat ∈ octets := by
  induction octets using lettersOf.induct with
  | case1 => simp [lettersOf] at member
  | case2 a rest small ih =>
      rw [lettersOf_ascii small, List.mem_cons, Letter.char.injEq] at member
      rcases member with rfl | later
      · have bound : a.toNat < 128 := UInt8.lt_iff_toNat_lt.mp small
        have same : (Char.ofNat a.toNat).toNat = a.toNat := by
          rw [Char.toNat_ofNat, if_pos (.inl (by omega))]
        simp [same]
      · exact List.mem_cons_of_mem _ (ih later)
  | case4 a large b₁ rest two ih =>
      rw [lettersOf.eq_def] at member
      simp only [large, if_false, two, if_true, List.mem_cons, Letter.char.injEq] at member
      rcases member with here | later
      · exact absurd here (ne_ofNat ascii positive (codePoint_two two))
      · simp [ih later]
  | case6 a large b₁ two b₂ rest three ih =>
      rw [lettersOf.eq_def] at member
      simp only [large, if_false, two, three, Bool.false_eq_true, if_true, List.mem_cons,
        Letter.char.injEq] at member
      rcases member with here | later
      · exact absurd here (ne_ofNat ascii positive (codePoint_three three))
      · simp [ih later]
  | case8 a large b₁ two b₂ three b₃ rest four ih =>
      rw [lettersOf.eq_def] at member
      simp only [large, if_false, two, three, four, Bool.false_eq_true, if_true, List.mem_cons,
        Letter.char.injEq] at member
      rcases member with here | later
      · exact absurd here (ne_ofNat ascii positive (codePoint_four four))
      · simp [ih later]
  | case3 a large => simp [lettersOf, large] at member
  | case5 a large b₁ two ih =>
      rw [lettersOf_stray large (by rintro _ _ ⟨⟩; simpa using two) (by simp) (by simp)] at member
      simp only [List.mem_cons, reduceCtorEq, false_or] at member
      exact List.mem_cons_of_mem _ (ih member)
  | case7 a large b₁ two b₂ three ih =>
      rw [lettersOf_stray large (by rintro _ _ ⟨⟩; simpa using two)
        (by rintro _ _ _ ⟨⟩; simpa using three) (by simp)] at member
      simp only [List.mem_cons, reduceCtorEq, false_or] at member
      exact List.mem_cons_of_mem _ (ih member)
  | case9 a large b₁ two b₂ three b₃ rest four ih =>
      rw [lettersOf_stray large (by rintro _ _ ⟨⟩; simpa using two)
        (by rintro _ _ _ ⟨⟩; simpa using three) (by rintro _ _ _ _ ⟨⟩; simpa using four)] at member
      rw [List.mem_cons] at member
      exact List.mem_cons_of_mem _ (ih (member.resolve_left (by simp)))

theorem chars_append_ascii {b : UInt8} (ascii : b < 0x80) (before after : List UInt8) :
    (Text.mk (before ++ b :: after)).chars =
      (Text.mk before).chars ++ Char.ofNat b.toNat :: (Text.mk after).chars := by
  simp [chars, letters, lettersOf_append_ascii ascii, Letter.toChar]

theorem not_mem_chars {c : Char} (ascii : c.toNat < 128) (positive : 0 < c.toNat) {t : Text}
    (absent : UInt8.ofNat c.toNat ∉ t.octets) : c ∉ t.chars := by
  intro member
  obtain ⟨letter, inText, same⟩ := List.mem_map.mp member
  cases letter with
  | char c' =>
      obtain rfl : c' = c := same
      exact absent (mem_of_ascii_letter ascii positive t.octets inText)
  | stray octet =>
      rw [← same, Letter.toChar] at ascii
      exact absurd ascii (by decide)

end LiteralHoist.Text
