import LiteralHoist.Patch.Middle
import Mathlib.Data.List.Basic

/-!
# Alignments

Flags say which items of two lists are changed.  They align the lists if the unchanged items of one
are the unchanged items of the other, in their order.  A comparison gives flags that align.
-/

set_option autoImplicit false

namespace LiteralHoist.Patch

section Items
variable {α : Type}

def unchanged (xs : List α) (flags : List Bool) : List α :=
  ((xs.zip flags).filter fun p => !p.2).map Prod.fst

structure Aligns (xs ys : List α) (flags : List Bool × List Bool) : Prop where
  first : flags.1.length = xs.length
  second : flags.2.length = ys.length
  matched : unchanged xs flags.1 = unchanged ys flags.2

theorem unchanged_cons (x : α) (xs : List α) (flag : Bool) (flags : List Bool) :
    unchanged (x :: xs) (flag :: flags) =
      if flag then unchanged xs flags else x :: unchanged xs flags := by
  cases flag <;> simp [unchanged]

theorem unchanged_append {xs : List α} {flags : List Bool} (fits : flags.length = xs.length)
    (ys : List α) (more : List Bool) :
    unchanged (xs ++ ys) (flags ++ more) = unchanged xs flags ++ unchanged ys more := by
  rw [unchanged, List.zip_append fits.symm, List.filter_append, List.map_append]
  rfl

theorem unchanged_of_all (xs : List α) : unchanged xs (xs.map fun _ => true) = [] := by
  induction xs with
  | nil => rfl
  | cons x rest ih => rw [List.map_cons, unchanged_cons, ih]; rfl

theorem Aligns.all (xs ys : List α) :
    Aligns xs ys (xs.map fun _ => true, ys.map fun _ => true) where
  first := List.length_map _
  second := List.length_map _
  matched := by rw [unchanged_of_all, unchanged_of_all]

theorem Aligns.none {xs ys : List α} {count : Nat} (same : xs = ys) (size : xs.length = count) :
    Aligns xs ys (List.replicate count false, List.replicate count false) := by
  subst same size
  exact ⟨List.length_replicate, List.length_replicate, rfl⟩

theorem Aligns.append {xs ys xs' ys' : List α} {flags flags' : List Bool × List Bool}
    (front : Aligns xs ys flags) (back : Aligns xs' ys' flags') :
    Aligns (xs ++ xs') (ys ++ ys') (flags.1 ++ flags'.1, flags.2 ++ flags'.2) where
  first := by rw [List.length_append, List.length_append, front.first, back.first]
  second := by rw [List.length_append, List.length_append, front.second, back.second]
  matched := by
    rw [unchanged_append front.first, unchanged_append front.second, front.matched, back.matched]

section Common
variable [BEq α] [LawfulBEq α]

theorem take_commonStart (xs : List α) : ∀ ys : List α,
    xs.take (commonStart xs ys) = ys.take (commonStart xs ys) ∧
      commonStart xs ys ≤ xs.length ∧ commonStart xs ys ≤ ys.length := by
  induction xs with
  | nil => intro ys; simp [commonStart]
  | cons x rest ih =>
      intro ys
      cases ys with
      | nil => simp [commonStart]
      | cons y more =>
          obtain ⟨same, first, second⟩ := ih more
          rw [commonStart]
          split
          · rename_i equal
            rw [eq_of_beq equal]
            simp [same, first, second]
          · simp

/-- A part of what two lists start with. -/
theorem take_of_le_commonStart {xs ys : List α} {lead : Nat} (common : lead ≤ commonStart xs ys) :
    xs.take lead = ys.take lead ∧ lead ≤ xs.length ∧ lead ≤ ys.length := by
  obtain ⟨same, first, second⟩ := take_commonStart xs ys
  refine ⟨?_, Nat.le_trans common first, Nat.le_trans common second⟩
  have shorter := congrArg (List.take lead) same
  rwa [List.take_take, List.take_take, Nat.min_eq_left common] at shorter

theorem drop_of_le_commonStart {xs ys : List α} {trail : Nat}
    (common : trail ≤ commonStart xs.reverse ys.reverse) :
    xs.drop (xs.length - trail) = ys.drop (ys.length - trail) ∧ trail ≤ xs.length ∧
      trail ≤ ys.length := by
  obtain ⟨same, first, second⟩ := take_of_le_commonStart common
  rw [List.take_reverse, List.take_reverse] at same
  exact ⟨List.reverse_injective same, by simpa using first, by simpa using second⟩

/-- Flags for what is left between a common start and a common end. -/
theorem Aligns.around {xs ys : List α} {lead trail : Nat} {flags : List Bool × List Bool}
    (start : lead ≤ commonStart xs ys)
    (ending : trail ≤ commonStart (xs.drop lead).reverse (ys.drop lead).reverse)
    (inner : Aligns ((xs.drop lead).take ((xs.drop lead).length - trail))
      ((ys.drop lead).take ((ys.drop lead).length - trail)) flags) :
    Aligns xs ys (List.replicate lead false ++ flags.1 ++ List.replicate trail false,
      List.replicate lead false ++ flags.2 ++ List.replicate trail false) := by
  obtain ⟨before, first, second⟩ := take_of_le_commonStart start
  obtain ⟨after, third, fourth⟩ := drop_of_le_commonStart ending
  have leading : Aligns (xs.take lead) (ys.take lead)
      (List.replicate lead false, List.replicate lead false) :=
    Aligns.none before (List.length_take_of_le first)
  have trailing : Aligns ((xs.drop lead).drop ((xs.drop lead).length - trail))
      ((ys.drop lead).drop ((ys.drop lead).length - trail))
      (List.replicate trail false, List.replicate trail false) :=
    Aligns.none after (by rw [List.length_drop]; omega)
  have whole := (leading.append inner).append trailing
  simpa only [List.append_assoc, List.take_append_drop] using whole

/-- What a comparison finds between the common start and the common end. -/
def compareBetween (depth : Nat) (xs ys : List α) : List Bool × List Bool :=
  let all := (xs.map fun _ => true, ys.map fun _ => true)
  if xs.isEmpty || ys.isEmpty then all
  else
    match (Sides.mk xs.toArray ys.toArray).middle with
    | none => all
    | some (i, j) =>
      let first := compare depth (xs.take i) (ys.take j)
      let second := compare depth (xs.drop i) (ys.drop j)
      (first.1 ++ second.1, first.2 ++ second.2)

omit [LawfulBEq α] in
theorem compare_succ (depth : Nat) (xs ys : List α) : compare (depth + 1) xs ys =
    let lead := commonStart xs ys
    let xs := xs.drop lead
    let ys := ys.drop lead
    let trail := commonStart xs.reverse ys.reverse
    let between := compareBetween depth (xs.take (xs.length - trail)) (ys.take (ys.length - trail))
    (List.replicate lead false ++ between.1 ++ List.replicate trail false,
      List.replicate lead false ++ between.2 ++ List.replicate trail false) :=
  rfl

theorem aligns_compare (depth : Nat) : ∀ xs ys : List α, Aligns xs ys (compare depth xs ys) := by
  induction depth with
  | zero => exact fun xs ys => Aligns.all xs ys
  | succ depth ih =>
      intro xs ys
      rw [compare_succ]
      refine Aligns.around (Nat.le_refl _) (Nat.le_refl _) ?_
      rw [compareBetween]
      split
      · exact Aligns.all _ _
      · split
        · exact Aligns.all _ _
        · rename_i i j _
          have divided (xs ys : List α) := (ih (xs.take i) (ys.take j)).append
            (ih (xs.drop i) (ys.drop j))
          simp only [List.take_append_drop] at divided
          exact divided _ _

end Common

end Items

end LiteralHoist.Patch
