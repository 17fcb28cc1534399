import LiteralHoist.Proofs.Text.Utf8
import LiteralHoist.Source.Literal
import LiteralHoist.Source.Modifiers

/-!
# Names and keywords

The names of kinds and the keywords of modifiers name what they were made from: a set of modifiers
that some words name is also named by its own words.
-/

set_option autoImplicit false

namespace LiteralHoist.Source

theorem Kind.ofName?_name (k : Kind) : Kind.ofName? k.name = some k := by
  cases k <;> decide

theorem LiteralKind.ofName?_name (k : LiteralKind) : LiteralKind.ofName? k.name = some k := by
  cases k <;> decide

theorem LiteralKind.name_ne_empty (k : LiteralKind) : k.name ≠ "" := by
  cases k <;> decide

theorem Modifier.ofWord?_word (m : Modifier) : Modifier.ofWord? m.word = some m := by
  cases m <;> decide

theorem Modifier.word_injective {m m' : Modifier} (same : m.word = m'.word) : m = m' := by
  rw [← Option.some.injEq, ← ofWord?_word, ← ofWord?_word, same]

theorem Modifier.mem_all (m : Modifier) : m ∈ Modifier.all := by
  cases m <;> decide

theorem Modifier.index_lt (m : Modifier) : m.index < 16 := by
  cases m <;> decide

theorem Modifier.index_injective {m m' : Modifier} (same : m.index = m'.index) : m = m' := by
  cases m <;> cases m' <;> first | rfl | contradiction

namespace Modifiers

theorem addWords_map_word (ms : List Modifier) : ∀ a : Modifiers,
    a.addWords (ms.map Modifier.word) = .ok (ms.foldl insert a) := by
  induction ms with
  | nil => exact fun _ => rfl
  | cons m rest ih =>
      intro a
      rw [List.map_cons, addWords, Modifier.ofWord?_word]
      exact ih (a.insert m)

theorem exists_of_addWords {words : List Text} : ∀ {a b : Modifiers},
    a.addWords words = .ok b →
      ∃ ms : List Modifier, words = ms.map Modifier.word ∧ b = ms.foldl insert a := by
  induction words with
  | nil => exact fun success => ⟨[], rfl, (Except.ok.inj success).symm⟩
  | cons word rest ih =>
      intro a b success
      rw [addWords] at success
      cases known : Modifier.ofWord? word with
      | none => simp [known] at success
      | some m =>
          simp only [known] at success
          obtain ⟨ms, named, made⟩ := ih success
          have word : m.word = word := by simpa using List.find?_some known
          exact ⟨m :: ms, by rw [named, ← word, List.map_cons], made⟩

theorem getLsbD_foldl_insert (ms : List Modifier) (i : Nat) : ∀ a : Modifiers,
    (ms.foldl insert a).bits.getLsbD i = true ↔
      a.bits.getLsbD i = true ∨ ∃ m ∈ ms, m.index = i := by
  induction ms with
  | nil => simp
  | cons m rest ih =>
      intro a
      rw [List.foldl_cons, ih]
      simp [insert, union, single, Modifier.index_lt, or_assoc]

theorem getLsbD_ofList (ms : List Modifier) (i : Nat) :
    (ofList ms).bits.getLsbD i = true ↔ ∃ m ∈ ms, m.index = i := by
  rw [ofList, getLsbD_foldl_insert]
  simp [none]

theorem contains_ofList (ms : List Modifier) (m : Modifier) :
    (ofList ms).contains m = true ↔ m ∈ ms := by
  rw [contains, getLsbD_ofList]
  constructor
  · rintro ⟨m', member, same⟩
    exact Modifier.index_injective same ▸ member
  · exact fun member => ⟨m, member, rfl⟩

theorem includes_ofList (a : Modifiers) (ms : List Modifier) :
    a.includes (ofList ms) = true ↔ ∀ m ∈ ms, a.contains m = true := by
  rw [includes, beq_iff_eq]
  constructor
  · intro covered m member
    have bit : (ofList ms).bits.getLsbD m.index = true :=
      (getLsbD_ofList ms m.index).mpr ⟨m, member, rfl⟩
    rw [← covered, BitVec.getLsbD_and, Bool.and_eq_true] at bit
    exact bit.1
  · intro contained
    refine BitVec.eq_of_getLsbD_eq fun i _ => ?_
    rw [BitVec.getLsbD_and, Bool.and_eq_right_iff_imp]
    intro bit
    obtain ⟨m, member, rfl⟩ := (getLsbD_ofList ms i).mp bit
    exact contained m member

/-- A set that was made from modifiers is made from those that it contains. -/
theorem ofList_filter_contains (ms : List Modifier) :
    ofList (Modifier.all.filter (ofList ms).contains) = ofList ms := by
  have bits : (ofList (Modifier.all.filter (ofList ms).contains)).bits = (ofList ms).bits := by
    refine BitVec.eq_of_getLsbD_eq fun i _ => ?_
    rw [Bool.eq_iff_iff, getLsbD_ofList, getLsbD_ofList]
    simp only [List.mem_filter, Modifier.mem_all, true_and, contains_ofList]
  exact congrArg Modifiers.mk bits

theorem ofWords_words {words : List Text} {m : Modifiers} (success : ofWords words = .ok m) :
    ofWords m.words = .ok m := by
  obtain ⟨ms, _, rfl⟩ := exists_of_addWords success
  rw [Modifiers.words, ofWords, addWords_map_word]
  exact congrArg _ (ofList_filter_contains ms)

/-- The words of a set that words name are these words, in the order of the modifiers. -/
theorem words_of_ofWords {words : List Text} {m : Modifiers} (success : ofWords words = .ok m) :
    m.words = (Modifier.all.map Modifier.word).filter (· ∈ words) := by
  obtain ⟨ms, rfl, rfl⟩ := exists_of_addWords success
  rw [Modifiers.words, List.filter_map]
  refine congrArg _ (List.filter_congr fun modifier _ => ?_)
  have contained : (ofList ms).contains modifier = true ↔ modifier ∈ ms :=
    contains_ofList ms modifier
  have named : modifier.word ∈ ms.map Modifier.word ↔ modifier ∈ ms :=
    List.mem_map_of_injective fun _ _ => Modifier.word_injective
  rw [Bool.eq_iff_iff]
  exact contained.trans (named.symm.trans (by simp))

end Modifiers

end LiteralHoist.Source
