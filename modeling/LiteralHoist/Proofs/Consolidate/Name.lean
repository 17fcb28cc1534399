import LiteralHoist.Consolidate.Name
import LiteralHoist.Proofs.Text.Join
import Mathlib.Data.Finset.Card
import Mathlib.Data.Finset.Image

/-!
# Free names

A name that a search finds is free, and the first such in the order of suffixes.  The names with
different suffixes differ, so a search that is allowed one step more than names are taken finds a
free one: it comes back empty only for a text without letters and digits, or if a limit on the
suffix leaves taken names only.
-/

set_option autoImplicit false

namespace LiteralHoist

theorem Text.ofChars_injective : Function.Injective Text.ofChars := by
  intro a b same
  have octets : a.utf8Encode = b.utf8Encode := by
    simp only [List.utf8Encode]
    exact congrArg (fun t : Text => t.octets.toByteArray) same
  exact String.ofList_injective (String.toByteArray_inj.mp octets)

theorem Text.ofString_repr_injective {i j : Nat}
    (same : Text.ofString (Nat.repr i) = Text.ofString (Nat.repr j)) : i = j := by
  have digits : Nat.toDigits 10 i = Nat.toDigits 10 j := by
    simpa [Nat.repr_eq_ofList_toDigits] using Text.ofChars_injective same
  calc i = Nat.ofDigitChars 10 (Nat.toDigits 10 i) 0 := Nat.ofDigitChars_ten_toDigits.symm
    _ = Nat.ofDigitChars 10 (Nat.toDigits 10 j) 0 := by rw [digits]
    _ = j := Nat.ofDigitChars_ten_toDigits

theorem Text.append_right_injective {base a b : Text} (same : base ++ a = base ++ b) : a = b := by
  have octets := congrArg Text.octets same
  rw [Text.octets_append, Text.octets_append] at octets
  obtain ⟨_⟩ := a
  obtain ⟨_⟩ := b
  exact congrArg Text.mk (List.append_cancel_left octets)

namespace Consolidate

theorem octets_suffixed (base : Text) {i : Nat} (positive : i ≠ 0) :
    (suffixed base i).octets =
      base.octets ++ (Text.ofString "_" ++ Text.ofString (Nat.repr i)).octets := by
  rw [suffixed, if_neg positive, Text.octets_append, Text.octets_append, Text.octets_append,
    List.append_assoc]
  rfl

theorem suffixed_ne_base (base : Text) {i : Nat} (positive : i ≠ 0) : suffixed base i ≠ base := by
  intro same
  have octets := congrArg Text.octets same
  rw [octets_suffixed base positive, List.append_right_eq_self, Text.octets_append,
    List.append_eq_nil_iff] at octets
  have underscore : (Text.ofString "_").octets ≠ [] := by decide
  exact underscore octets.1

theorem suffixed_injective (base : Text) : Function.Injective (suffixed base) := by
  intro i j same
  have plain : suffixed base 0 = base := rfl
  by_cases first : i = 0
  · by_cases second : j = 0
    · rw [first, second]
    · rw [first, plain] at same
      exact absurd same.symm (suffixed_ne_base base second)
  · by_cases second : j = 0
    · rw [second, plain] at same
      exact absurd same (suffixed_ne_base base first)
    · have octets := congrArg Text.octets same
      rw [octets_suffixed base first, octets_suffixed base second] at octets
      have tails : Text.ofString "_" ++ Text.ofString (Nat.repr i) =
          Text.ofString "_" ++ Text.ofString (Nat.repr j) :=
        congrArg Text.mk (List.append_cancel_left octets)
      exact Text.ofString_repr_injective (Text.append_right_injective tails)

theorem searchFrom_free {base : Text} {taken : Text → Bool} {limit : Int} {name : Text} :
    ∀ {steps i : Nat}, (searchFrom base taken limit steps i).found = some name →
      taken name = false := by
  intro steps
  induction steps with
  | zero => intro i found; simp [searchFrom] at found
  | succ steps ih =>
      intro i found
      unfold searchFrom at found
      simp only at found
      split at found
      · rename_i free
        obtain rfl : suffixed base i = name := by simpa using found
        simpa using free
      · split at found
        · simp at found
        · exact ih found

theorem freeName_free {seed : Text} {taken : Text → Bool} {count : Nat} {limit : Int}
    {name : Text} (found : (freeName seed taken count limit).found = some name) :
    taken name = false := by
  unfold freeName at found
  simp only at found
  split at found
  · simp at found
  · exact searchFrom_free found

/-- A search that finds nothing met only taken names, up to the limit. -/
theorem searchFrom_none {base : Text} {taken : Text → Bool} {limit : Int} :
    ∀ {steps i : Nat}, (searchFrom base taken limit steps i).found = none →
      ∀ j : Nat, i ≤ j → j < i + steps → (0 < limit → (j : Int) ≤ limit) →
        taken (suffixed base j) = true := by
  intro steps
  induction steps with
  | zero => intro i _ j lower upper _; omega
  | succ steps ih =>
      intro i nothing j lower upper within
      unfold searchFrom at nothing
      simp only at nothing
      split at nothing
      · simp at nothing
      · rename_i used
        rcases Nat.eq_or_lt_of_le lower with here | later
        · subst here
          simpa using used
        · rw [if_neg (by omega)] at nothing
          exact ih nothing j later (by omega) within

/-- The name of the first suffix that is free. -/
def IsFirstFree (free : Text → Prop) (base name : Text) : Prop :=
  ∃ i, name = suffixed base i ∧ free name ∧ ∀ j < i, ¬ free (suffixed base j)

/-- A search asks about the suffixes one after the other: what it finds has the first free one, and
that one is within the limit. -/
theorem searchFrom_first {base : Text} {taken : Text → Bool} {limit : Int} {name : Text} :
    ∀ {steps i : Nat}, (0 < limit → (i : Int) ≤ limit) →
      (searchFrom base taken limit steps i).found = some name →
      ∃ j, i ≤ j ∧ (0 < limit → (j : Int) ≤ limit) ∧ name = suffixed base j ∧
        ∀ k, i ≤ k → k < j → taken (suffixed base k) = true := by
  intro steps
  induction steps with
  | zero => intro i _ found; simp [searchFrom] at found
  | succ steps ih =>
      intro i within found
      unfold searchFrom at found
      simp only at found
      split at found
      · exact ⟨i, le_rfl, within, by simpa using found.symm, by omega⟩
      · rename_i used
        split at found
        · simp at found
        · rename_i more
          obtain ⟨j, lower, within', named, before⟩ := ih (by omega) found
          refine ⟨j, by omega, within', named, fun k lower' upper => ?_⟩
          rcases Nat.eq_or_lt_of_le lower' with here | later
          · subst here
            simpa using used
          · exact before k later upper

/-- One of the suffixes up to the number of taken names is free, since there are more of them than
taken names. -/
theorem exists_free {taken : Text → Bool} {names : List Text}
    (covered : ∀ name, taken name = true → name ∈ names) (base : Text) :
    ∃ j ≤ names.length, taken (suffixed base j) = false := by
  by_contra none
  push Not at none
  have inside : (Finset.range (names.length + 1)).image (suffixed base) ⊆ names.toFinset := by
    intro name asked
    obtain ⟨j, small, rfl⟩ := Finset.mem_image.mp asked
    have below := Finset.mem_range.mp small
    exact List.mem_toFinset.mpr (covered _ (by simpa using none j (by omega)))
  have count := Finset.card_le_card inside
  rw [Finset.card_image_of_injective _ (suffixed_injective _), Finset.card_range] at count
  have most := List.toFinset_card_le names
  omega

/-- A search fails only for a text that no name can be made from, or if all the suffixes that the
limit allows are taken. -/
theorem freeName_none_iff {seed : Text} {taken : Text → Bool} {names : List Text} {limit : Int}
    (covered : ∀ name, taken name = true → name ∈ names) :
    (freeName seed taken names.length limit).found = none ↔
      constantName seed = "" ∨ 0 < limit ∧
        ∀ i : Nat, (i : Int) ≤ limit → taken (suffixed (constantName seed) i) = true := by
  obtain ⟨j, small, free⟩ := exists_free covered (constantName seed)
  by_cases named : constantName seed = ""
  · simp [freeName, named]
  · rw [freeName, if_neg named]
    simp only [named, false_or]
    constructor
    · intro nothing
      have used := searchFrom_none nothing
      have beyond : 0 < limit ∧ limit < j := by
        by_contra allowed
        rw [used j (Nat.zero_le j) (by omega) (by omega)] at free
        simp at free
      exact ⟨beyond.1, fun i within => used i (Nat.zero_le i) (by omega) fun _ => within⟩
    · rintro ⟨limited, used⟩
      by_contra some_
      obtain ⟨name, found⟩ := Option.ne_none_iff_exists'.mp some_
      obtain ⟨i, _, within, rfl, _⟩ := searchFrom_first (by omega) found
      have free := searchFrom_free found
      rw [used i (within limited)] at free
      simp at free

theorem freeName_first {seed : Text} {taken : Text → Bool} {count : Nat} {limit : Int}
    {name : Text} (found : (freeName seed taken count limit).found = some name) :
    IsFirstFree (fun name => taken name = false) (constantName seed) name := by
  have free := freeName_free found
  unfold freeName at found
  simp only at found
  split at found
  · simp at found
  · obtain ⟨i, _, _, named, before⟩ := searchFrom_first (by omega) found
    exact ⟨i, named, free, fun j earlier => by simp [before j (Nat.zero_le j) earlier]⟩

end Consolidate

end LiteralHoist
