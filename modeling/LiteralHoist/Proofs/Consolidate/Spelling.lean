import LiteralHoist.Proofs.Consolidate.NameGrammar

/-!
# How a name is spelled

The name made from a text has the letters and digits of the text in upper case.  What stands before
each of them can be told from its position: an underscore, if a word starts there that is not the
first one.
-/

set_option autoImplicit false

namespace LiteralHoist.Consolidate

def letterBefore (cs : List Char) (i : Nat) : Option Char :=
  ((cs.take i).filter Char.isAlpha).getLast?

/-- Whether a further word starts at a position with a letter or digit: there is one before, and
either it does not stand just before, or an upper case letter comes after a lower case one. -/
def startsFurtherWord (cs : List Char) : Char × Nat → Bool
  | (c, i) => (cs.take i).any Char.isAlphanum &&
      (!cs[i - 1]?.any Char.isAlphanum || c.isUpper && (letterBefore cs i).any Char.isLower)

def spelledAt (cs : List Char) : Char × Nat → List Char
  | (c, i) => (if startsFurtherWord cs (c, i) then ['_'] else []) ++ [c.toUpper]

def opening (cs : List Char) : List Char :=
  if (cs.find? Char.isAlphanum).any Char.isDigit then ['A', '_'] else []

/-- The letters and digits of a text in upper case, with underscores between the words. -/
def spelled (cs : List Char) : List Char :=
  opening cs ++ (cs.zipIdx.filter fun (c, _) => c.isAlphanum).flatMap (spelledAt cs)

theorem isDigit_eq_not_isAlpha {c : Char} (alphanum : c.isAlphanum = true) :
    c.isDigit = !c.isAlpha := by
  rw [Char.isAlphanum, Bool.or_eq_true] at alphanum
  cases letter : c.isAlpha with
  | false => simpa [letter] using alphanum
  | true =>
      rw [Char.isAlpha, Bool.or_eq_true, isUpper_iff, isLower_iff] at letter
      rw [Bool.not_true, Bool.eq_false_iff, Ne, isDigit_iff]
      omega

def endsLower (before : List Char) : Bool :=
  (before.filter Char.isAlpha).getLast?.any Char.isLower

theorem endsLower_snoc (before : List Char) (c : Char) :
    endsLower (before ++ [c]) = if c.isAlpha then c.isLower else endsLower before := by
  rw [endsLower, List.filter_append]
  by_cases letter : c.isAlpha = true
  · simp [letter]
  · simp [letter, endsLower]

def lastWritten (before : List Char) : Option Char :=
  (before.filter Char.isAlphanum).getLast?.map Char.toUpper

theorem lastWritten_snoc (before : List Char) (c : Char) :
    lastWritten (before ++ [c]) =
      if c.isAlphanum then some c.toUpper else lastWritten before := by
  rw [lastWritten, List.filter_append]
  by_cases alphanum : c.isAlphanum = true
  · simp [alphanum]
  · simp [alphanum, lastWritten]

theorem isNone_lastWritten (before : List Char) :
    (lastWritten before).isNone = !before.any Char.isAlphanum := by
  rw [Bool.eq_iff_iff]
  simp [lastWritten]

/-- No underscore is written at the end, since a letter or digit follows each. -/
theorem lastWritten_ne_underscore (before : List Char) : lastWritten before ≠ some '_' := by
  intro last
  obtain ⟨c, member, upper⟩ := Option.map_eq_some_iff.mp last
  have alphanum : c.isAlphanum = true := (List.mem_filter.mp (List.mem_of_getLast? member)).2
  exact ne_underscore_of_word (isWordChar_toUpper alphanum) upper

/-- What is written for a letter or digit after some characters depends on three things about them:
whether a letter or digit is among them, whether one is the last, and how the last letter is
written. -/
theorem startsFurtherWord_eq {cs before rest : List Char} {c : Char}
    (whole : cs = before ++ c :: rest) :
    startsFurtherWord cs (c, before.length) = (before.any Char.isAlphanum &&
      (!before.getLast?.any Char.isAlphanum || c.isUpper && endsLower before)) := by
  have earlier : cs.take before.length = before := by rw [whole, List.take_left]
  rw [startsFurtherWord, letterBefore, earlier, endsLower]
  cases before with
  | nil => rfl
  | cons first more =>
      have just : cs[(first :: more).length - 1]? = (first :: more).getLast? := by
        rw [List.getLast?_eq_getElem?, whole, List.getElem?_append_left (by simp)]
      rw [just]

/-- The loop that makes a name, after the characters `before`: its flags are those things about
them, and what it still writes is what the positions of the rest say. -/
theorem nameChars_eq {cs : List Char} (rest : List Char) : ∀ before : List Char,
    cs = before ++ rest →
      nameChars (lastWritten before) (before.getLast?.any Char.isAlphanum)
          (endsLower before) rest =
        (if before.any Char.isAlphanum then [] else opening rest) ++
          ((rest.zipIdx before.length).filter fun (c, _) => c.isAlphanum).flatMap
            (spelledAt cs) := by
  induction rest with
  | nil => intro before _; simp [nameChars, opening]
  | cons c rest ih =>
      intro before whole
      have next := ih (before ++ [c]) (by rw [whole, List.append_cons])
      rw [endsLower_snoc, lastWritten_snoc] at next
      simp only [List.any_append, List.any_cons, List.any_nil, Bool.or_false, List.getLast?_append,
        List.getLast?_singleton, List.length_append, List.length_singleton, Option.some_or,
        Option.any_some] at next
      rw [nameChars, List.zipIdx_cons]
      by_cases alphanum : c.isAlphanum = true
      · have digit := isDigit_eq_not_isAlpha alphanum
        have begins : opening (c :: rest) = if c.isDigit then ['A', '_'] else [] := by
          simp [opening, alphanum]
        have lower : (if c.isDigit = true then endsLower before else c.isLower) =
            if c.isAlpha = true then c.isLower else endsLower before := by
          cases letter : c.isAlpha <;> simp [digit, letter]
        have last := lastWritten_ne_underscore before
        simp only [alphanum, Bool.or_true, if_true, List.nil_append] at next
        simp only [alphanum, Bool.not_true, Bool.false_eq_true, if_false, List.filter_cons, if_true]
        rw [lower, next, List.flatMap_cons, spelledAt, startsFurtherWord_eq whole, begins,
          isNone_lastWritten]
        cases before.any Char.isAlphanum <;> simp [last]
      · have begins : opening (c :: rest) = opening rest := by
          simp [opening, alphanum]
        have letter : c.isAlpha = false := by
          rw [Char.isAlphanum, Bool.or_eq_true, not_or] at alphanum
          simpa using alphanum.1
        simp only [alphanum, letter, Bool.or_false, if_false, Bool.false_eq_true] at next
        simp only [alphanum, Bool.not_false, if_true, begins, List.filter_cons,
          Bool.false_eq_true, if_false]
        exact next

theorem nameChars_eq_spelled (cs : List Char) : nameChars none false false cs = spelled cs :=
  nameChars_eq cs [] rfl

theorem spelled_eq_nil_iff {cs : List Char} :
    spelled cs = [] ↔ ∀ c ∈ cs, c.isAlphanum = false := by
  have pieces : ∀ position : Char × Nat, spelledAt cs position ≠ [] := by
    rintro ⟨c, i⟩
    simp [spelledAt]
  have positions : cs.zipIdx.filter (fun (c, _) => c.isAlphanum) = [] ↔
      ∀ c ∈ cs, c.isAlphanum = false := by
    rw [List.filter_eq_nil_iff, List.forall_mem_zipIdx, List.forall_mem_iff_getElem]
    simp
  rw [spelled, List.append_eq_nil_iff, List.flatMap_eq_nil_iff, ← positions]
  constructor
  · rintro ⟨_, nothing⟩
    exact List.eq_nil_iff_forall_not_mem.mpr fun position member =>
      pieces position (nothing position member)
  · intro nothing
    have absent : cs.find? Char.isAlphanum = none := by
      simpa using positions.mp nothing
    simp [nothing, opening, absent]

/-- The name made from a text is empty exactly if the text has no ASCII letter or digit.  In any
case it is what the positions of the letters and digits say. -/
theorem name_spelled_by_positions (s : Text) :
    (constantName s = "" ↔ ∀ c ∈ s.chars, c.isAlphanum = false) ∧
      constantName s = Text.ofChars (spelled s.chars) := by
  have spells : constantName s = Text.ofChars (spelled s.chars) := by
    rw [constantName, nameChars_eq_spelled]
  refine ⟨?_, spells⟩
  rw [spells, ← spelled_eq_nil_iff]
  exact Text.ofChars_injective.eq_iff (b := [])

example : spelled "v2Config-1b".toList = "V2_CONFIG_1B".toList := by decide +kernel

end LiteralHoist.Consolidate
