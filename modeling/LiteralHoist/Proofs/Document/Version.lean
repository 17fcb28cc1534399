import LiteralHoist.Document.Version
import LiteralHoist.Proofs.Text.Utf8
import Mathlib.Tactic.Common

/-!
# The grammar of versions

A version has the form `vMAJOR[.MINOR[.PATCH[-PRERELEASE][+BUILD]]]`, where what stands in brackets
may be left out.  `Semantic` says this as a grammar, without saying how a text is taken apart, and
`major?` accepts exactly the texts of the grammar.
-/

set_option autoImplicit false

namespace LiteralHoist.Document.Version

def IsNumber (cs : List Char) : Prop :=
  cs ≠ [] ∧ (∀ c ∈ cs, c.isDigit = true) ∧ (cs.head? = some '0' → cs = ['0'])

def IsWord (cs : List Char) : Prop :=
  cs ≠ [] ∧ ∀ c ∈ cs, c.isAlphanum = true ∨ c = '-'

def IsPreReleaseWord (cs : List Char) : Prop :=
  IsWord cs ∧ ((∀ c ∈ cs, c.isDigit = true) → IsNumber cs)

/-- Nothing, or a mark and words with points between them. -/
inductive Marked (mark : Char) (Word : List Char → Prop) : List Char → Prop where
  | absent : Marked mark Word []
  | present {words : List (List Char)} (some : words ≠ []) (each : ∀ w ∈ words, Word w) :
      Marked mark Word (mark :: ['.'].intercalate words)

/-- A version with a major number. -/
inductive Semantic (major : List Char) : List Char → Prop where
  | major (number : IsNumber major) : Semantic major ('v' :: major)
  | minor {minor : List Char} (number : IsNumber major) (second : IsNumber minor) :
      Semantic major ('v' :: (major ++ '.' :: minor))
  | patch {minor patch preRelease build : List Char} (number : IsNumber major)
      (second : IsNumber minor) (third : IsNumber patch)
      (named : Marked '-' IsPreReleaseWord preRelease) (built : Marked '+' IsWord build) :
      Semantic major ('v' :: (major ++ '.' :: (minor ++ '.' :: (patch ++ (preRelease ++ build)))))

theorem isPlainNumber_iff {ds : List Char} (digits : ∀ c ∈ ds, c.isDigit = true) :
    isPlainNumber ds = true ↔ IsNumber ds := by
  rcases ds with _ | ⟨d, _ | ⟨e, rest⟩⟩
  · simp [isPlainNumber, IsNumber]
  · simpa [isPlainNumber, IsNumber] using digits
  · simpa [isPlainNumber, IsNumber] using fun _ => digits

theorem isIdentifier_iff {cs : List Char} : isIdentifier cs = true ↔ IsWord cs := by
  simp [isIdentifier, IsWord, isIdentifierChar]

theorem isPreReleaseIdentifier_iff {cs : List Char} :
    isPreReleaseIdentifier cs = true ↔ IsPreReleaseWord cs := by
  rw [isPreReleaseIdentifier, Bool.and_eq_true, isIdentifier_iff, IsPreReleaseWord]
  by_cases digits : ∀ c ∈ cs, c.isDigit = true
  · simp only [List.all_eq_true.mpr digits, Bool.not_true, Bool.false_or, isPlainNumber_iff digits]
    exact and_congr_right fun _ => ⟨fun number _ => number, fun number => number digits⟩
  · have mixed : cs.all Char.isDigit = false := by simpa using digits
    simp [mixed, digits]

/-- What a number in front of a text is, and what follows it. -/
theorem number?_iff {cs ds rest : List Char} :
    number? cs = some (ds, rest) ↔
      IsNumber ds ∧ cs = ds ++ rest ∧ ∀ c ∈ rest.head?, c.isDigit = false := by
  have digits : ∀ c ∈ cs.takeWhile Char.isDigit, c.isDigit = true :=
    List.all_eq_true.mp List.all_takeWhile
  constructor
  · intro found
    rw [number?] at found
    split at found
    · rename_i plain
      obtain ⟨rfl, rfl⟩ := Prod.mk.inj (Option.some.inj found)
      refine ⟨(isPlainNumber_iff digits).mp plain, List.takeWhile_append_dropWhile.symm, ?_⟩
      intro c first
      have stopped := List.head?_dropWhile_not Char.isDigit cs
      simp only [Option.mem_def] at first
      simpa [first] using stopped
    · contradiction
  · rintro ⟨number, rfl, stops⟩
    have front : (ds ++ rest).takeWhile Char.isDigit = ds := by
      rw [List.takeWhile_append_of_pos number.2.1]
      cases rest with
      | nil => simp
      | cons c rest => simp [stops c rfl]
    have back : (ds ++ rest).dropWhile Char.isDigit = rest := by
      rw [List.dropWhile_append_of_pos number.2.1]
      cases rest with
      | nil => rfl
      | cons c rest => simp [stops c rfl]
    rw [number?, front, back, if_pos ((isPlainNumber_iff number.2.1).mpr number)]

theorem pointed_eq_splitOn (cs : List Char) : pointed cs = cs.splitOn '.' := by
  induction cs with
  | nil => rfl
  | cons c rest ih =>
      rw [pointed, List.splitOn_cons_eq_if_modifyHead, ih]
      simp only [beq_iff_eq]
      split
      · rfl
      · cases parts : rest.splitOn '.' with
        | nil => exact absurd parts (List.splitOn_ne_nil _ _)
        | cons part parts => rfl

theorem all_pointed_iff {Word : List Char → Prop} {check : List Char → Bool}
    (checks : ∀ cs, check cs = true ↔ Word cs) (pointless : ∀ cs, Word cs → '.' ∉ cs)
    {cs : List Char} :
    (pointed cs).all check = true ↔
      ∃ words, words ≠ [] ∧ (∀ w ∈ words, Word w) ∧ cs = ['.'].intercalate words := by
  rw [pointed_eq_splitOn, List.all_eq_true]
  constructor
  · intro each
    refine ⟨cs.splitOn '.', List.splitOn_ne_nil _ _, fun w member => ?_, ?_⟩
    · exact (checks w).mp (each w member)
    · exact (List.intercalate_splitOn '.').symm
  · rintro ⟨words, some, each, rfl⟩ w member
    rw [List.splitOn_intercalate '.' (fun l listed => pointless l (each l listed)) some] at member
    exact (checks w).mpr (each w member)

theorem point_notMem_of_isWord {cs : List Char} (word : IsWord cs) : '.' ∉ cs := by
  intro member
  have allowed := word.2 '.' member
  exact absurd allowed (by decide)

theorem isBuild_iff {cs : List Char} : isBuild cs = true ↔ Marked '+' IsWord cs := by
  cases cs with
  | nil => exact ⟨fun _ => .absent, fun _ => rfl⟩
  | cons c rest =>
      rw [isBuild, Bool.and_eq_true, beq_iff_eq,
        all_pointed_iff (fun _ => isIdentifier_iff) fun _ => point_notMem_of_isWord]
      constructor
      · rintro ⟨rfl, words, some, each, rfl⟩
        exact .present some each
      · rintro ⟨⟩
        rename_i words some each
        exact ⟨rfl, words, some, each, rfl⟩

theorem head?_of_marked {mark : Char} {Word : List Char → Prop} {cs : List Char}
    (marked : Marked mark Word cs) : ∀ c ∈ cs.head?, c = mark := by
  cases marked with
  | absent => simp
  | present => simp

theorem plus_notMem_of_words {words : List (List Char)} (each : ∀ w ∈ words, IsWord w) :
    '+' ∉ ['.'].intercalate words := by
  have free : ∀ w, IsWord w → '+' ∉ w := fun w word member =>
    absurd (word.2 '+' member) (by decide)
  induction words with
  | nil => simp
  | cons w rest ih =>
      obtain ⟨here, later⟩ := List.forall_mem_cons.mp each
      cases rest with
      | nil => simpa using free w here
      | cons next rest =>
          rw [List.intercalate_cons_cons]
          simp [free w here, ih later]

/-- A pre-release goes as far as the first mark of a build. -/
theorem isEnding_iff {cs : List Char} :
    isEnding cs = true ↔ ∃ preRelease build, cs = preRelease ++ build ∧
      Marked '-' IsPreReleaseWord preRelease ∧ Marked '+' IsWord build := by
  have checks := @all_pointed_iff _ _ (fun _ => isPreReleaseIdentifier_iff)
    fun _ word => point_notMem_of_isWord word.1
  constructor
  · intro ending
    unfold isEnding at ending
    split at ending
    · rename_i rest
      rw [Bool.and_eq_true, checks, isBuild_iff] at ending
      obtain ⟨⟨words, some, each, front⟩, build⟩ := ending
      refine ⟨'-' :: ['.'].intercalate words, _, ?_, .present some each, build⟩
      rw [← front, List.cons_append, List.takeWhile_append_dropWhile]
    · exact ⟨[], cs, rfl, .absent, isBuild_iff.mp ending⟩
  · rintro ⟨preRelease, build, rfl, named, built⟩
    cases named with
    | absent =>
        rw [List.nil_append, isEnding]
        · exact isBuild_iff.mpr built
        · rintro rest rfl
          exact absurd (head?_of_marked built '-' rfl) (by decide)
    | @present words some each =>
        have free : ∀ c ∈ ['.'].intercalate words, (c != '+') = true := by
          intro c member
          have plus := plus_notMem_of_words fun w listed => (each w listed).1
          rw [bne_iff_ne]
          rintro rfl
          exact plus member
        have stops : build.takeWhile (· != '+') = [] ∧ build.dropWhile (· != '+') = build := by
          cases built with
          | absent => exact ⟨rfl, rfl⟩
          | present => simp
        rw [List.cons_append, isEnding, List.takeWhile_append_of_pos free,
          List.dropWhile_append_of_pos free, stops.1, stops.2, List.append_nil, Bool.and_eq_true]
        exact ⟨checks.mpr ⟨words, some, each, rfl⟩, isBuild_iff.mpr built⟩

theorem notDigit_of_ending {preRelease build : List Char}
    (named : Marked '-' IsPreReleaseWord preRelease) (built : Marked '+' IsWord build) :
    ∀ c ∈ (preRelease ++ build).head?, c.isDigit = false := by
  intro c first
  rcases preRelease with _ | ⟨d, rest⟩
  · rw [head?_of_marked built c first]
    decide
  · rw [head?_of_marked named c first]
    decide

/-- What may follow the major number: nothing, a minor number, or a minor number, a patch number
and an ending. -/
theorem isTail_iff {cs : List Char} :
    isTail cs = true ↔ cs = [] ∨ (∃ minor, IsNumber minor ∧ cs = '.' :: minor) ∨
      ∃ minor patch preRelease build, IsNumber minor ∧ IsNumber patch ∧
        Marked '-' IsPreReleaseWord preRelease ∧ Marked '+' IsWord build ∧
        cs = '.' :: (minor ++ '.' :: (patch ++ (preRelease ++ build))) := by
  constructor
  · intro tail
    unfold isTail at tail
    split at tail
    · exact .inl rfl
    · split at tail
      · rename_i minor found
        obtain ⟨number, rfl, _⟩ := number?_iff.mp found
        exact .inr (.inl ⟨minor, number, by rw [List.append_nil]⟩)
      · rename_i minor rest found
        obtain ⟨second, rfl, _⟩ := number?_iff.mp found
        split at tail
        · rename_i patch rest found
          obtain ⟨third, rfl, _⟩ := number?_iff.mp found
          obtain ⟨preRelease, build, rfl, named, built⟩ := isEnding_iff.mp tail
          exact .inr (.inr ⟨minor, patch, preRelease, build, second, third, named, built, rfl⟩)
        · contradiction
      · contradiction
    · contradiction
  · rintro (rfl | ⟨minor, number, rfl⟩ |
      ⟨minor, patch, preRelease, build, second, third, named, built, rfl⟩)
    · rfl
    · have found : number? minor = some (minor, []) :=
        number?_iff.mpr ⟨number, by rw [List.append_nil], by simp⟩
      simp only [isTail, found]
    · have first : number? (minor ++ '.' :: (patch ++ (preRelease ++ build))) =
          some (minor, '.' :: (patch ++ (preRelease ++ build))) :=
        number?_iff.mpr ⟨second, rfl, by simp⟩
      have next : number? (patch ++ (preRelease ++ build)) = some (patch, preRelease ++ build) :=
        number?_iff.mpr ⟨third, rfl, notDigit_of_ending named built⟩
      simp only [isTail, first, next]
      exact isEnding_iff.mpr ⟨preRelease, build, rfl, named, built⟩

theorem notDigit_of_isTail {cs : List Char} (tail : isTail cs = true) :
    ∀ c ∈ cs.head?, c.isDigit = false := by
  rcases isTail_iff.mp tail with rfl | ⟨minor, _, rfl⟩ | ⟨minor, patch, pre, build, _, _, _, _, rfl⟩
  all_goals simp

theorem semantic_iff {major cs : List Char} :
    Semantic major cs ↔
      IsNumber major ∧ ∃ rest, isTail rest = true ∧ cs = 'v' :: (major ++ rest) := by
  constructor
  · intro version
    cases version with
    | major number => exact ⟨number, [], rfl, by rw [List.append_nil]⟩
    | minor number second =>
        exact ⟨number, _, isTail_iff.mpr (.inr (.inl ⟨_, second, rfl⟩)), rfl⟩
    | patch number second third named built =>
        have tail := isTail_iff.mpr
          (.inr (.inr ⟨_, _, _, _, second, third, named, built, rfl⟩))
        exact ⟨number, _, tail, rfl⟩
  · rintro ⟨number, rest, tail, rfl⟩
    rcases isTail_iff.mp tail with rfl | ⟨minor, second, rfl⟩ |
      ⟨minor, patch, preRelease, build, second, third, named, built, rfl⟩
    · rw [List.append_nil]
      exact .major number
    · exact .minor number second
    · exact .patch number second third named built

/-- The texts that have a major number are the versions with that number. -/
theorem major?_iff {s : Text} {major : List Char} :
    major? s = some (Text.ofChars major) ↔ Semantic major s.chars := by
  rw [semantic_iff]
  constructor
  · intro found
    unfold major? at found
    split at found
    · rename_i cs chars
      split at found
      · rename_i ds rest number
        split at found
        · rename_i tail
          obtain rfl : ds = major := by
            have same := congrArg Text.chars (Option.some.inj found)
            rwa [Text.chars_ofChars, Text.chars_ofChars] at same
          obtain ⟨plain, rfl, _⟩ := number?_iff.mp number
          exact ⟨plain, rest, tail, chars⟩
        · contradiction
      · contradiction
    · contradiction
  · rintro ⟨number, rest, tail, chars⟩
    have found := number?_iff.mpr ⟨number, rfl, notDigit_of_isTail tail⟩
    simp only [major?, chars, found, tail, if_true]

end LiteralHoist.Document.Version
