import LiteralHoist.Proofs.Consolidate.Decision
import LiteralHoist.Proofs.Consolidate.NameGrammar
import Mathlib.Computability.RegularExpressions

/-!
# The pattern of names

Names are described by a regular expression: an upper case letter, then upper case letters and
digits, then words of these after single underscores.  The texts of this form are the names that
are made, and each is made from itself.  So a constant that was given a name by a search keeps it,
unless something else has taken it.
-/

set_option autoImplicit false

namespace LiteralHoist.Consolidate

def oneOf (cs : List Char) : RegularExpression Char :=
  (cs.map RegularExpression.char).sum

def someTimes (r : RegularExpression Char) : RegularExpression Char :=
  r * r.star

def charsFrom (first last : Char) : List Char :=
  (List.range' first.toNat (last.toNat + 1 - first.toNat)).map Char.ofNat

def wordChars : List Char :=
  charsFrom 'A' 'Z' ++ charsFrom '0' '9'

/-- A word that is not the first one: `_[A-Z0-9]+`. -/
def furtherWord : RegularExpression Char :=
  RegularExpression.char '_' * someTimes (oneOf wordChars)

/-- The form of names: `[A-Z][A-Z0-9]*(_[A-Z0-9]+)*`. -/
def namePattern : RegularExpression Char :=
  oneOf (charsFrom 'A' 'Z') * (oneOf wordChars).star * furtherWord.star

def MatchesName (t : Text) : Prop :=
  ∃ cs ∈ namePattern.matches', t = Text.ofChars cs

theorem mem_oneOf {cs word : List Char} :
    word ∈ (oneOf cs).matches' ↔ ∃ c ∈ cs, word = [c] := by
  induction cs with
  | nil => simp [oneOf, Language.notMem_zero]
  | cons c cs ih =>
      have split : oneOf (c :: cs) = RegularExpression.char c + oneOf cs := rfl
      have single : word ∈ (RegularExpression.char c).matches' ↔ word = [c] := Iff.rfl
      rw [split, RegularExpression.matches'_add, Language.mem_add, ih, single]
      simp

theorem mem_oneOf_star {cs word : List Char} :
    word ∈ (oneOf cs).star.matches' ↔ ∀ c ∈ word, c ∈ cs := by
  rw [RegularExpression.matches'_star, Language.mem_kstar]
  constructor
  · rintro ⟨parts, rfl, each⟩ c member
    obtain ⟨part, inside, here⟩ := List.mem_flatten.mp member
    obtain ⟨d, known, rfl⟩ := mem_oneOf.mp (each part inside)
    rwa [List.mem_singleton.mp here]
  · intro each
    refine ⟨word.map fun c => [c], by rw [← List.flatMap_def, List.flatMap_singleton'], ?_⟩
    intro part member
    obtain ⟨c, inside, rfl⟩ := List.mem_map.mp member
    exact mem_oneOf.mpr ⟨c, each c inside, rfl⟩

theorem mem_charsFrom {first last c : Char} (small : last.toNat < 0xD800) :
    c ∈ charsFrom first last ↔ first.toNat ≤ c.toNat ∧ c.toNat ≤ last.toNat := by
  simp only [charsFrom, List.mem_map, List.mem_range'_1]
  constructor
  · rintro ⟨n, inside, rfl⟩
    rw [Char.toNat_ofNat, if_pos (.inl (by omega))]
    omega
  · intro inside
    exact ⟨c.toNat, by omega, Char.ofNat_toNat c⟩

theorem mem_upperCase {c : Char} : c ∈ charsFrom 'A' 'Z' ↔ c.isUpper = true := by
  rw [mem_charsFrom (by decide), isUpper_iff]
  rfl

theorem mem_wordChars {c : Char} : c ∈ wordChars ↔ isWordChar c = true := by
  rw [wordChars, List.mem_append, mem_upperCase, mem_charsFrom (by decide), isWordChar_iff,
    isDigit_iff]
  rfl

theorem mem_furtherWord {cs : List Char} :
    cs ∈ furtherWord.matches' ↔
      ∃ c rest, cs = '_' :: c :: rest ∧ isWordChar c = true ∧ ∀ d ∈ rest, isWordChar d = true := by
  simp only [furtherWord, someTimes, RegularExpression.matches'_mul,
    RegularExpression.matches'_char, Language.mem_mul, mem_oneOf, mem_oneOf_star, mem_wordChars]
  constructor
  · rintro ⟨_, rfl, _, ⟨_, ⟨c, word, rfl⟩, rest, words, rfl⟩, rfl⟩
    exact ⟨c, rest, rfl, word, words⟩
  · rintro ⟨c, rest, rfl, word, words⟩
    exact ⟨_, rfl, _, ⟨_, ⟨c, word, rfl⟩, rest, words, rfl⟩, rfl⟩

theorem nameTail_append_words {cs rest : List Char} (words : ∀ c ∈ cs, isWordChar c = true)
    (tail : NameTail rest) : NameTail (cs ++ rest) := by
  induction cs with
  | nil => exact tail
  | cons c cs ih =>
      obtain ⟨word, more⟩ := List.forall_mem_cons.mp words
      exact .next word (ih more)

/-- What follows the first letter of a name: the rest of its word, and further words. -/
theorem nameTail_iff {cs : List Char} : NameTail cs ↔ ∃ word further,
    (∀ c ∈ word, isWordChar c = true) ∧ further ∈ furtherWord.star.matches' ∧
      cs = word ++ further := by
  simp only [RegularExpression.matches'_star, Language.mem_kstar]
  constructor
  · intro tail
    induction tail with
    | done => exact ⟨[], [], by simp, ⟨[], rfl, by simp⟩, rfl⟩
    | next word _ ih =>
        obtain ⟨first, further, words, inside, rfl⟩ := ih
        exact ⟨_ :: first, further, List.forall_mem_cons.mpr ⟨word, words⟩, inside, rfl⟩
    | @newWord c _ word _ ih =>
        obtain ⟨first, further, words, ⟨parts, rfl, each⟩, rfl⟩ := ih
        have here := mem_furtherWord.mpr ⟨c, first, rfl, word, words⟩
        exact ⟨[], _, by simp, ⟨_ :: parts, rfl, List.forall_mem_cons.mpr ⟨here, each⟩⟩, rfl⟩
  · rintro ⟨word, _, words, ⟨parts, rfl, each⟩, rfl⟩
    refine nameTail_append_words words ?_
    induction parts with
    | nil => exact .done
    | cons part parts ih =>
        obtain ⟨here, later⟩ := List.forall_mem_cons.mp each
        obtain ⟨c, rest, rfl, first, more⟩ := mem_furtherWord.mp here
        exact .newWord first (nameTail_append_words more (ih later))

theorem matchesName_iff {t : Text} : MatchesName t ↔ IsName t := by
  simp only [MatchesName, namePattern, RegularExpression.matches'_mul, Language.mem_mul, mem_oneOf,
    mem_oneOf_star, mem_upperCase, mem_wordChars, IsName, nameTail_iff]
  constructor
  · rintro ⟨_, ⟨_, ⟨_, ⟨c, upper, rfl⟩, word, words, rfl⟩, further, inside, rfl⟩, rfl⟩
    exact ⟨c, _, rfl, upper, word, further, words, inside, rfl⟩
  · rintro ⟨c, _, rfl, upper, word, further, words, inside, rfl⟩
    exact ⟨_, ⟨_, ⟨_, ⟨c, upper, rfl⟩, word, words, rfl⟩, further, inside, rfl⟩, rfl⟩

theorem IsName.ne_empty {name : Text} (isName : IsName name) : name ≠ "" := by
  obtain ⟨c, rest, rfl, _, _⟩ := isName
  intro empty
  exact List.cons_ne_nil c rest (Text.ofChars_injective empty)

theorem isName_of_freeName {seed : Text} {taken : Text → Bool} {count : Nat} {limit : Int}
    {name : Text} (found : (freeName seed taken count limit).found = some name) : IsName name := by
  obtain ⟨i, rfl, _, _⟩ := freeName_first found
  refine (isName_constantName fun unnamed => ?_).suffixed i
  rw [freeName, if_pos unnamed] at found
  simp at found

/-- A search that starts from a free name asks for nothing else. -/
theorem freeName_of_isName {name : Text} (isName : IsName name) {taken : Text → Bool}
    (free : taken name = false) (count : Nat) (limit : Int) :
    freeName name taken count limit = ⟨some name, [name]⟩ := by
  rw [freeName, isName.constantName_eq, if_neg isName.ne_empty]
  simp [searchFrom, suffixed, free]

theorem planGroup_of_isName (settings : Settings) {existing : List Constant} {scope : Scope}
    {o : Occurrences} {c : Constant} (own : existing.find? (·.value == o.value) = some c)
    (isName : IsName c.name) (free : scope.takenByOthers c.name c.name = false) :
    planGroup settings existing scope o = some (groupOf o (some c) c.name) := by
  rw [planGroup_eq, own, seedOf, takenFor]
  simp only [own]
  rw [freeName_of_isName isName free]
  rfl

/-- What is made from a text is empty or of the form of names, and the texts of this form are made
from themselves.  So making a name twice changes nothing, and a constant that has a name which some
search has found is planned under that name again, unless the name is taken by anything else. -/
theorem names_are_fixed_points :
    (∀ s : Text, constantName s = "" ∨ MatchesName (constantName s)) ∧
    (∀ name : Text, MatchesName name → constantName name = name) ∧
    (∀ s : Text, constantName (constantName s) = constantName s) ∧
    ∀ (seed : Text) (taken : Text → Bool) (count : Nat) (limit : Int) (name : Text),
      (freeName seed taken count limit).found = some name →
        MatchesName name ∧ constantName name = name ∧
        ∀ (settings : Settings) (existing : List Constant) (scope : Scope) (o : Occurrences)
          (c : Constant), existing.find? (·.value == o.value) = some c → c.name = name →
          scope.takenByOthers name name = false →
          ∃ g, planGroup settings existing scope o = some g ∧ g.action = .reuse ∧
            g.name = name := by
  refine ⟨fun s => ?_, fun name form => (matchesName_iff.mp form).constantName_eq, fun s => ?_, ?_⟩
  · by_cases unnamed : constantName s = ""
    · exact .inl unnamed
    · exact .inr (matchesName_iff.mpr (isName_constantName unnamed))
  · by_cases unnamed : constantName s = ""
    · rw [unnamed]
      rfl
    · exact (isName_constantName unnamed).constantName_eq
  · intro seed taken count limit name found
    have isName := isName_of_freeName found
    refine ⟨matchesName_iff.mpr isName, isName.constantName_eq, ?_⟩
    rintro settings existing scope o c own rfl free
    exact ⟨_, planGroup_of_isName settings own isName free, if_pos rfl, rfl⟩

/-- The name that was found for `v2Config` beside `V2_CONFIG` stays. -/
theorem found_name_kept :
    (freeName "v2Config" (· = "V2_CONFIG") 1 0).found = some "V2_CONFIG_1" ∧
      MatchesName "V2_CONFIG_1" ∧ constantName "V2_CONFIG_1" = "V2_CONFIG_1" ∧
      ∃ g, planGroup {} [⟨"V2_CONFIG_1", "on", 3⟩] { bound := ["V2_CONFIG_1", "V2_CONFIG"] }
        ⟨"on", [1, 2]⟩ = some g ∧ g.action = .reuse ∧ g.name = "V2_CONFIG_1" := by
  have found : (freeName "v2Config" (· = "V2_CONFIG") 1 0).found = some "V2_CONFIG_1" := by
    decide +kernel
  obtain ⟨_, fixed, _, searched⟩ := names_are_fixed_points
  obtain ⟨form, _, kept⟩ := searched _ _ _ _ _ found
  exact ⟨found, form, fixed _ form, kept {} _ { bound := ["V2_CONFIG_1", "V2_CONFIG"] }
    ⟨"on", [1, 2]⟩ ⟨"V2_CONFIG_1", "on", 3⟩ (by decide +kernel) rfl (by decide +kernel)⟩

end LiteralHoist.Consolidate
