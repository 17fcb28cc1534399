import LiteralHoist.Patch.Align
import LiteralHoist.Proofs.Patch.Hunk
import LiteralHoist.Proofs.Patch.Shift

/-!
# The edits of two texts

The flags that the comparison of two texts ends with align their lines, so the edits made from them
take all lines of the old text and give all lines of the new one.
-/

set_option autoImplicit false

namespace LiteralHoist.Patch

theorem length_keepStretches (least : Nat) (run : List Standing) : ∀ stretch,
    (keepStretches least stretch run).length = stretch + run.length := by
  induction run with
  | nil => simp [keepStretches]
  | cons s rest ih =>
      intro stretch
      cases s with
      | provisional => rw [keepStretches, ih, List.length_cons]; omega
      | kept => simp [keepStretches, ih]
      | discarded => simp [keepStretches, ih]

theorem length_keepStart (run : List Standing) : ∀ index row,
    (keepStart index row run).length = run.length := by
  induction run with
  | nil => simp [keepStart]
  | cons s rest ih =>
      intro index row
      rw [keepStart]
      split_ifs <;> simp [ih]

theorem length_settleRun (run : List Standing) : (settleRun run).length = run.length := by
  rw [settleRun]
  split
  · exact List.length_map _
  · simp [length_keepStart, length_keepStretches]

theorem length_settleOpenRun (run : List Standing) :
    (settleOpenRun run).length = run.length := by
  have shorter : (run.reverse.takeWhile (· = .provisional)).length ≤ run.reverse.length :=
    (List.takeWhile_sublist _).length_le
  rw [List.length_reverse] at shorter
  rw [settleOpenRun, List.length_append, length_settleRun, List.length_take, List.length_map]
  omega

theorem length_settle (ls : List Standing) : ∀ run : List Standing,
    (settle run ls).length = run.length + ls.length := by
  induction ls with
  | nil => simp [settle, length_settleOpenRun]
  | cons s rest ih =>
      intro run
      cases s with
      | kept => simp [settle, length_settleOpenRun, ih]
      | discarded => simp [settle, ih]; omega
      | provisional =>
          rw [settle]
          split
          · rename_i empty
            simp [ih, List.isEmpty_iff.mp empty]
          · simp [ih]; omega

theorem length_takesPart (ls others : List Text) : (takesPart ls others).length = ls.length := by
  simp [takesPart, length_settle, standings]

theorem select_cons (line : Text) (rest : List Text) (take : Bool) (takes : List Bool) :
    select (line :: rest) (take :: takes) =
      if take then line :: select rest takes else select rest takes := by
  cases take <;> simp [select]

theorem unchanged_spread (ls : List Text) : ∀ takes flags : List Bool, takes.length = ls.length →
    flags.length = (select ls takes).length →
      (spread takes flags).length = ls.length ∧
      unchanged ls (spread takes flags) = unchanged (select ls takes) flags := by
  induction ls with
  | nil =>
      intro takes flags none _
      rw [List.eq_nil_of_length_eq_zero none]
      simp [spread, unchanged, select]
  | cons line rest ih =>
      intro takes flags fits enough
      obtain ⟨take, takes, rfl⟩ := List.exists_cons_of_length_eq_add_one fits
      have restFits : takes.length = rest.length := Nat.succ.inj fits
      cases take with
      | false =>
          rw [select_cons] at enough ⊢
          obtain ⟨size, same⟩ := ih takes flags restFits enough
          rw [spread, unchanged_cons, List.length_cons, size, same]
          exact ⟨rfl, rfl⟩
      | true =>
          rw [select_cons] at enough ⊢
          obtain ⟨flag, flags, rfl⟩ := List.exists_cons_of_length_eq_add_one enough
          obtain ⟨size, same⟩ := ih takes flags restFits (Nat.succ.inj enough)
          rw [spread, unchanged_cons, List.length_cons, size, same, if_pos rfl, unchanged_cons]
          exact ⟨rfl, rfl⟩

theorem aligns_changedBetween (old new : List Text) : Aligns old new (changedBetween old new) := by
  have compared := aligns_compare
    ((select old (takesPart old new)).length + (select new (takesPart new old)).length + 1)
    (select old (takesPart old new)) (select new (takesPart new old))
  rw [changedBetween]
  dsimp only
  generalize compare _ (select old (takesPart old new)) (select new (takesPart new old)) = flags
    at compared ⊢
  obtain ⟨first, oldSame⟩ := unchanged_spread old _ _ (length_takesPart old new) compared.first
  obtain ⟨second, newSame⟩ := unchanged_spread new _ _ (length_takesPart new old) compared.second
  obtain ⟨shiftedFirst, oldShifted⟩ :=
    unchanged_shift first (spread (takesPart new old) flags.2)
  obtain ⟨shiftedSecond, newShifted⟩ := unchanged_shift second
    (shift old (spread (takesPart old new) flags.1) (spread (takesPart new old) flags.2))
  exact ⟨shiftedFirst, shiftedSecond,
    oldShifted.trans (oldSame.trans (compared.matched.trans (newSame.symm.trans newShifted.symm)))⟩

theorem aligns_changed (old new : List Text) : Aligns old new (changed old new) := by
  rw [changed]
  dsimp only
  exact Aligns.around (Nat.sub_le _ _) (Nat.sub_le _ _) (aligns_changedBetween _ _)

theorem lines_weave (old new : List (Text × Bool))
    (matched : (old.filter fun p => !p.2).map Prod.fst = (new.filter fun p => !p.2).map Prod.fst) :
    oldLines (weave old new) = old.map Prod.fst ∧ newLines (weave old new) = new.map Prod.fst := by
  induction old, new using weave.induct with
  | case1 line old new ih =>
      obtain ⟨first, second⟩ := ih (by simpa using matched)
      rw [weave]
      simp [Edit.old?, Edit.new?, first, second]
  | case2 line old ih => simp at matched
  | case3 line flag new ih =>
      cases flag with
      | false => simp at matched
      | true =>
          obtain ⟨first, second⟩ := ih (by simpa using matched)
          rw [weave]
          simp [Edit.old?, Edit.new?, first, second]
  | case4 kept old line new ih =>
      obtain ⟨first, second⟩ := ih (by simpa using matched)
      rw [weave]
      simp [Edit.old?, Edit.new?, first, second]
  | case5 kept old other new ih =>
      obtain ⟨rfl, rest⟩ : kept = other ∧ (old.filter fun p => !p.2).map Prod.fst =
          (new.filter fun p => !p.2).map Prod.fst := by simpa using matched
      obtain ⟨first, second⟩ := ih rest
      rw [weave]
      simp [Edit.old?, Edit.new?, first, second]
  | case6 => simp [weave]

theorem Aligns.lines_editsOf {old new : List Text} {flags : List Bool × List Bool}
    (aligns : Aligns old new flags) :
    oldLines (editsOf old new flags) = old ∧ newLines (editsOf old new flags) = new := by
  obtain ⟨oldSide, newSide⟩ := lines_weave (old.zip flags.1) (new.zip flags.2) aligns.matched
  rw [List.map_fst_zip (Nat.le_of_eq aligns.first.symm)] at oldSide
  rw [List.map_fst_zip (Nat.le_of_eq aligns.second.symm)] at newSide
  exact ⟨oldSide, newSide⟩

/-- The edits of two texts take all lines of the one and give all lines of the other. -/
theorem lines_edits (old new : List Text) :
    oldLines (edits old new) = old ∧ newLines (edits old new) = new :=
  (aligns_changed old new).lines_editsOf

end LiteralHoist.Patch
