import LiteralHoist.Proofs.Consolidate.Name
import LiteralHoist.Proofs.Text.Utf8
import Mathlib

/-!
# The grammar of names

A name starts with an upper case letter and consists of words of upper case letters and digits, with
single underscores between them.  Every name made from a text is of this form, the suffixes keep it,
and a text of this form is the name made from it.  So the names that a search asks about are fixed
points of `constantName`.
-/

set_option autoImplicit false

namespace LiteralHoist.Consolidate

def isWordChar (c : Char) : Bool :=
  c.isUpper || c.isDigit

/-- What may follow a letter or digit of a name. -/
inductive NameTail : List Char → Prop where
  | done : NameTail []
  | next {c : Char} {rest : List Char} (word : isWordChar c = true) (tail : NameTail rest) :
      NameTail (c :: rest)
  | newWord {c : Char} {rest : List Char} (word : isWordChar c = true) (tail : NameTail rest) :
      NameTail ('_' :: c :: rest)

def IsName (name : Text) : Prop :=
  ∃ c rest, name = Text.ofChars (c :: rest) ∧ c.isUpper = true ∧ NameTail rest

theorem isUpper_iff {c : Char} : c.isUpper = true ↔ 65 ≤ c.toNat ∧ c.toNat ≤ 90 := by
  simp [Char.isUpper, UInt32.le_iff_toNat_le]

theorem isLower_iff {c : Char} : c.isLower = true ↔ 97 ≤ c.toNat ∧ c.toNat ≤ 122 := by
  simp [Char.isLower, UInt32.le_iff_toNat_le]

theorem isDigit_iff {c : Char} : c.isDigit = true ↔ 48 ≤ c.toNat ∧ c.toNat ≤ 57 := by
  simp [Char.isDigit, UInt32.le_iff_toNat_le]

theorem isDigit_of_isUpper {c : Char} (upper : c.isUpper = true) : c.isDigit = false := by
  rw [isUpper_iff] at upper
  rw [Bool.eq_false_iff, Ne, isDigit_iff]
  omega

theorem isWordChar_iff {c : Char} :
    isWordChar c = true ↔ c.isUpper = true ∨ c.isDigit = true := by
  rw [isWordChar, Bool.or_eq_true]

theorem isLower_of_word {c : Char} (word : isWordChar c = true) : c.isLower = false := by
  rw [isWordChar_iff, isUpper_iff, isDigit_iff] at word
  rw [Bool.eq_false_iff, Ne, isLower_iff]
  omega

theorem isAlphanum_of_word {c : Char} (word : isWordChar c = true) : c.isAlphanum = true := by
  rw [isWordChar_iff] at word
  rw [Char.isAlphanum, Char.isAlpha, Bool.or_eq_true, Bool.or_eq_true]
  tauto

theorem toUpper_of_word {c : Char} (word : isWordChar c = true) : c.toUpper = c :=
  Char.toUpper_eq_of_not_isLower (Bool.eq_false_iff.mp (isLower_of_word word))

theorem isWordChar_toUpper {c : Char} (alphanum : c.isAlphanum = true) :
    isWordChar c.toUpper = true := by
  rw [Char.isAlphanum, Bool.or_eq_true] at alphanum
  rcases alphanum with letter | digit
  · exact isWordChar_iff.mpr (.inl ((Char.isUpper_toUpper_eq_isAlpha c).trans letter))
  · have word := isWordChar_iff.mpr (.inr digit)
    rwa [toUpper_of_word word]

theorem nameTail_nameChars (cs : List Char) : ∀ (last : Char) (afterAlphanum afterLower : Bool),
    NameTail (nameChars (some last) afterAlphanum afterLower cs) := by
  induction cs with
  | nil => exact fun _ _ _ => .done
  | cons c cs ih =>
      intro last afterAlphanum afterLower
      rw [nameChars]
      split
      · exact ih _ _ _
      · rename_i alphanum
        have word := isWordChar_toUpper (by simpa using alphanum)
        simp only [Option.isNone_some, Bool.false_eq_true, if_false]
        split
        · exact .newWord word (ih _ _ _)
        · exact .next word (ih _ _ _)

theorem nameChars_cases (cs : List Char) : ∀ afterAlphanum afterLower : Bool,
    nameChars none afterAlphanum afterLower cs = [] ∨
      ∃ c rest, nameChars none afterAlphanum afterLower cs = c :: rest ∧ c.isUpper = true ∧
        NameTail rest := by
  induction cs with
  | nil => exact fun _ _ => .inl rfl
  | cons c cs ih =>
      intro afterAlphanum afterLower
      rw [nameChars]
      split
      · exact ih _ _
      · rename_i alphanum
        have known : c.isAlphanum = true := by simpa using alphanum
        right
        by_cases digit : c.isDigit = true
        · simp only [Option.isNone_none, if_true, digit]
          exact ⟨'A', _, rfl, by decide,
            .newWord (isWordChar_toUpper known) (nameTail_nameChars cs _ _ _)⟩
        · have letter : c.isAlpha = true := by simpa [Char.isAlphanum, digit] using known
          simp only [Option.isNone_none, if_true, digit, Bool.false_eq_true, if_false]
          exact ⟨c.toUpper, _, rfl, (Char.isUpper_toUpper_eq_isAlpha c).trans letter,
            nameTail_nameChars cs _ _ _⟩

theorem isName_constantName {s : Text} (named : constantName s ≠ "") : IsName (constantName s) := by
  rcases nameChars_cases s.chars false false with nothing | ⟨c, rest, chars, upper, tail⟩
  · rw [constantName, nothing] at named
    exact absurd rfl named
  · exact ⟨c, rest, by rw [constantName, chars], upper, tail⟩

theorem NameTail.append {cs rest : List Char} (first : NameTail cs) (second : NameTail rest) :
    NameTail (cs ++ rest) := by
  induction first with
  | done => exact second
  | next word _ ih => exact .next word ih
  | newWord word _ ih => exact .newWord word ih

theorem nameTail_of_digits {cs : List Char} (digits : ∀ c ∈ cs, c.isDigit = true) :
    NameTail cs := by
  induction cs with
  | nil => exact .done
  | cons c cs ih =>
      have digit := digits c List.mem_cons_self
      exact .next (isWordChar_iff.mpr (.inr digit))
        (ih fun c' member => digits c' (List.mem_cons_of_mem _ member))

theorem suffixed_eq_ofChars (cs : List Char) {i : Nat} (positive : i ≠ 0) :
    suffixed (Text.ofChars cs) i = Text.ofChars (cs ++ '_' :: Nat.toDigits 10 i) := by
  have number : Text.ofString (Nat.repr i) = Text.ofChars (Nat.toDigits 10 i) := by
    simp [Text.ofString, Nat.repr_eq_ofList_toDigits]
  have octets := octets_suffixed (Text.ofChars cs) positive
  rw [number] at octets
  refine congrArg Text.mk (octets.trans ?_)
  rw [List.flatMap_append]
  rfl

theorem IsName.suffixed {base : Text} (name : IsName base) (i : Nat) :
    IsName (suffixed base i) := by
  obtain ⟨c, rest, rfl, upper, tail⟩ := name
  by_cases first : i = 0
  · rw [first]
    exact ⟨c, rest, rfl, upper, tail⟩
  · have digits : ∀ d ∈ Nat.toDigits 10 i, d.isDigit = true :=
      fun d member => Nat.isDigit_of_mem_toDigits (by decide) (by decide) member
    cases written : Nat.toDigits 10 i with
    | nil => exact absurd written Nat.toDigits_ne_nil
    | cons d ds =>
        rw [written] at digits
        have digit := digits d List.mem_cons_self
        have more := nameTail_of_digits fun d' member => digits d' (List.mem_cons_of_mem _ member)
        refine ⟨c, rest ++ '_' :: d :: ds, ?_, upper,
          tail.append (.newWord (isWordChar_iff.mpr (.inr digit)) more)⟩
        rw [suffixed_eq_ofChars _ first, written]
        rfl

theorem ne_underscore_of_word {c : Char} (word : isWordChar c = true) : c ≠ '_' := by
  rintro rfl
  exact absurd word (by decide)

theorem nameChars_of_tail {cs : List Char} (tail : NameTail cs) : ∀ {last : Char},
    isWordChar last = true → nameChars (some last) true false cs = cs := by
  induction tail with
  | done => exact fun _ => rfl
  | next word _ ih =>
      intro last _
      simp [nameChars, isAlphanum_of_word word, toUpper_of_word word, isLower_of_word word, ih word]
  | newWord word _ ih =>
      intro last lastWord
      have separator : ('_').isAlphanum = false := by decide
      simp [nameChars, separator, ne_underscore_of_word lastWord, isAlphanum_of_word word,
        toUpper_of_word word, isLower_of_word word, ih word]

theorem IsName.constantName_eq {name : Text} (isName : IsName name) : constantName name = name := by
  obtain ⟨c, rest, rfl, upper, tail⟩ := isName
  have word := isWordChar_iff.mpr (.inl upper)
  rw [constantName, Text.chars_ofChars]
  simp [nameChars, isAlphanum_of_word word, isDigit_of_isUpper upper, toUpper_of_word word,
    isLower_of_word word, nameChars_of_tail tail word]

/-- The names that a search asks about are made from themselves. -/
theorem constantName_suffixed {seed : Text} (named : constantName seed ≠ "") (i : Nat) :
    constantName (suffixed (constantName seed) i) = suffixed (constantName seed) i :=
  ((isName_constantName named).suffixed i).constantName_eq

end LiteralHoist.Consolidate
