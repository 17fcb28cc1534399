import LiteralHoist.Patch.Hunk
import Mathlib.Data.List.Basic

/-!
# Carrying out hunks

A hunk is carried out where it says it stands: the lines before it are kept, its old lines have to
follow, and its new lines take their place.  The hunks of a sequence of edits turn the old lines
into the new lines.  Taken back, they are the hunks of the edits taken back, and turn the new lines
into the old ones.
-/

set_option autoImplicit false

namespace LiteralHoist.Patch

/-- Carries out hunks on the lines that are left of a text, behind lines of the two texts. -/
def applyHunks (oldAt newAt : Nat) : List Hunk → List Text → Option (List Text)
  | [], ls => some ls
  | h :: rest, ls =>
    let gap := h.oldStart - oldAt
    let taken := (oldLines h.edits).length
    if oldAt ≤ h.oldStart ∧ h.newStart = newAt + gap ∧ gap ≤ ls.length ∧
        (ls.drop gap).take taken = oldLines h.edits then
      (applyHunks (h.oldStart + taken) (h.newStart + (newLines h.edits).length) rest
        (ls.drop (gap + taken))).map fun after => ls.take gap ++ newLines h.edits ++ after
    else none

def Edit.reversed : Edit → Edit
  | .keep line => .keep line
  | .delete line => .insert line
  | .insert line => .delete line

def Hunk.reversed (h : Hunk) : Hunk where
  oldStart := h.newStart
  newStart := h.oldStart
  edits := h.edits.map Edit.reversed

@[simp] theorem Edit.isChange_reversed (e : Edit) : e.reversed.isChange = e.isChange := by
  cases e <;> rfl

@[simp] theorem Edit.old?_reversed (e : Edit) : e.reversed.old? = e.new? := by
  cases e <;> rfl

@[simp] theorem Edit.new?_reversed (e : Edit) : e.reversed.new? = e.old? := by
  cases e <;> rfl

@[simp] theorem oldLines_nil : oldLines [] = [] :=
  rfl

@[simp] theorem newLines_nil : newLines [] = [] :=
  rfl

@[simp] theorem oldLines_cons (e : Edit) (rest : List Edit) :
    oldLines (e :: rest) = e.old?.toList ++ oldLines rest := by
  cases e <;> rfl

@[simp] theorem newLines_cons (e : Edit) (rest : List Edit) :
    newLines (e :: rest) = e.new?.toList ++ newLines rest := by
  cases e <;> rfl

@[simp] theorem oldLines_append (first second : List Edit) :
    oldLines (first ++ second) = oldLines first ++ oldLines second :=
  List.filterMap_append

@[simp] theorem newLines_append (first second : List Edit) :
    newLines (first ++ second) = newLines first ++ newLines second :=
  List.filterMap_append

theorem oldLines_reversed (edits : List Edit) :
    oldLines (edits.map Edit.reversed) = newLines edits := by
  simp [oldLines, newLines, List.filterMap_map]

theorem newLines_reversed (edits : List Edit) :
    newLines (edits.map Edit.reversed) = oldLines edits := by
  simp [oldLines, newLines, List.filterMap_map]

theorem map_fst_shown (edits : List Edit) :
    ∀ behind, (shown behind edits).map Prod.fst = edits := by
  induction edits with
  | nil => exact fun _ => rfl
  | cons e rest ih =>
      intro behind
      rw [shown]
      split <;> simp [ih]

/-- Every change is shown. -/
theorem visible_of_change (edits : List Edit) : ∀ behind, ∀ f ∈ shown behind edits,
    f.1.isChange = true → f.2 = true := by
  induction edits with
  | nil => exact fun _ _ member => absurd member List.not_mem_nil
  | cons e rest ih =>
      intro behind f member change
      rw [shown] at member
      split at member
      · rcases List.mem_cons.mp member with rfl | later
        · rfl
        · exact ih _ f later change
      · rename_i kept
        rcases List.mem_cons.mp member with rfl | later
        · exact absurd change kept
        · exact ih _ f later change

/-- The edits of hunks are among the edits that they are made of. -/
theorem mem_of_mem_runs (fs : List (Edit × Bool)) : ∀ (started : Option Hunk) (oldAt newAt : Nat),
    ∀ h ∈ runs started oldAt newAt fs, ∀ e ∈ h.edits,
      (∃ s ∈ started, e ∈ s.edits) ∨ e ∈ fs.map Prod.fst := by
  induction fs with
  | nil =>
      intro started oldAt newAt h member e inside
      exact .inl ⟨h, Option.mem_toList.mp member, inside⟩
  | cons f rest ih =>
      intro started oldAt newAt h member e inside
      obtain ⟨g, visible⟩ := f
      cases visible with
      | true =>
          rcases ih _ _ _ h member e inside with ⟨s, isStarted, before⟩ | later
          · obtain rfl := Option.some.inj isStarted
            rcases List.mem_append.mp before with before | here
            · cases started with
              | none => exact absurd before List.not_mem_nil
              | some s => exact .inl ⟨s, rfl, before⟩
            · exact .inr (List.mem_cons.mpr (.inl (List.mem_singleton.mp here)))
          · exact .inr (List.mem_cons_of_mem _ later)
      | false =>
          rcases List.mem_append.mp member with ended | later
          · exact .inl ⟨h, Option.mem_toList.mp ended, inside⟩
          · rcases ih _ _ _ h later e inside with ⟨s, isStarted, _⟩ | further
            · exact absurd isStarted (Option.not_mem_none s)
            · exact .inr (List.mem_cons_of_mem _ further)

theorem mem_of_mem_hunks {edits : List Edit} {h : Hunk} (member : h ∈ hunks edits) {e : Edit}
    (inside : e ∈ h.edits) : e ∈ edits := by
  rcases mem_of_mem_runs _ none 0 0 h member e inside with ⟨s, isStarted, _⟩ | shown
  · exact absurd isStarted (Option.not_mem_none s)
  · rwa [map_fst_shown] at shown

theorem shown_reversed (edits : List Edit) : ∀ behind, shown behind (edits.map Edit.reversed) =
    (shown behind edits).map (Prod.map Edit.reversed id) := by
  induction edits with
  | nil => exact fun _ => rfl
  | cons e rest ih =>
      intro behind
      have ahead : ((rest.map Edit.reversed).take contextSize).any Edit.isChange =
          (rest.take contextSize).any Edit.isChange := by
        rw [← List.map_take, List.any_map]
        congr 1
        funext x
        exact x.isChange_reversed
      rw [List.map_cons, shown, shown, Edit.isChange_reversed, ahead, ih, ih]
      split <;> rfl

theorem runs_reversed (fs : List (Edit × Bool)) : ∀ (started : Option Hunk) (oldAt newAt : Nat),
    runs (started.map Hunk.reversed) newAt oldAt (fs.map (Prod.map Edit.reversed id)) =
      (runs started oldAt newAt fs).map Hunk.reversed := by
  induction fs with
  | nil =>
      intro started oldAt newAt
      cases started <;> rfl
  | cons f rest ih =>
      intro started oldAt newAt
      obtain ⟨e, visible⟩ := f
      cases visible with
      | false =>
          have later := ih none (oldAt + e.old?.toList.length) (newAt + e.new?.toList.length)
          cases started with
          | none => simpa [runs] using later
          | some h => simpa [runs] using later
      | true =>
          cases started with
          | none =>
              have later := ih (some ⟨oldAt, newAt, [e]⟩) (oldAt + e.old?.toList.length)
                (newAt + e.new?.toList.length)
              simpa [runs, Hunk.reversed] using later
          | some h =>
              have later := ih (some { h with edits := h.edits ++ [e] })
                (oldAt + e.old?.toList.length) (newAt + e.new?.toList.length)
              simpa [runs, Hunk.reversed] using later

theorem hunks_reversed (edits : List Edit) :
    hunks (edits.map Edit.reversed) = (hunks edits).map Hunk.reversed := by
  rw [hunks, hunks, shown_reversed]
  exact runs_reversed _ none 0 0

/-- A hunk that stands behind lines that no hunk has reached is carried out there. -/
theorem applyHunks_cons {oldAt newAt : Nat} {h : Hunk} {passed : List Text}
    (oldStart : h.oldStart = oldAt + passed.length) (newStart : h.newStart = newAt + passed.length)
    (rest : List Hunk) (later : List Text) :
    applyHunks oldAt newAt (h :: rest) (passed ++ (oldLines h.edits ++ later)) =
      (applyHunks (h.oldStart + (oldLines h.edits).length)
        (h.newStart + (newLines h.edits).length) rest later).map
          (passed ++ newLines h.edits ++ ·) := by
  have gap : h.oldStart - oldAt = passed.length := by omega
  have first : (passed ++ (oldLines h.edits ++ later)).drop passed.length =
      oldLines h.edits ++ later := List.drop_left
  have second : (passed ++ (oldLines h.edits ++ later)).drop
      (passed.length + (oldLines h.edits).length) = later := by
    rw [← List.drop_drop, first, List.drop_left]
  rw [applyHunks]
  simp only [gap, first, second, List.take_left]
  rw [if_pos ⟨by omega, newStart, by simp, trivial⟩]

/-- What a run of shown edits does, where `started` is the hunk that they go on with and `passed`
are lines that no hunk has reached. -/
theorem applyHunks_runs (fs : List (Edit × Bool))
    (visible : ∀ f ∈ fs, f.1.isChange = true → f.2 = true) :
    (∀ (oldAt newAt : Nat) (passed : List Text),
      applyHunks oldAt newAt
          (runs none (oldAt + passed.length) (newAt + passed.length) fs)
          (passed ++ oldLines (fs.map Prod.fst)) =
        some (passed ++ newLines (fs.map Prod.fst))) ∧
    (∀ (oldAt newAt : Nat) (passed : List Text) (h : Hunk),
      h.oldStart = oldAt + passed.length → h.newStart = newAt + passed.length →
      applyHunks oldAt newAt
          (runs (some h) (h.oldStart + (oldLines h.edits).length)
            (h.newStart + (newLines h.edits).length) fs)
          (passed ++ (oldLines h.edits ++ oldLines (fs.map Prod.fst))) =
        some (passed ++ newLines h.edits ++ newLines (fs.map Prod.fst))) := by
  induction fs with
  | nil =>
      refine ⟨fun oldAt newAt passed => by simp [runs, applyHunks], ?_⟩
      intro oldAt newAt passed h oldStart newStart
      rw [runs, Option.toList_some, applyHunks_cons oldStart newStart]
      simp [applyHunks]
  | cons f rest ih =>
      obtain ⟨e, seen⟩ := f
      obtain ⟨here, later⟩ := List.forall_mem_cons.mp visible
      obtain ⟨ihNone, ihSome⟩ := ih later
      cases seen with
      | true =>
          constructor
          · intro oldAt newAt passed
            have next := ihSome oldAt newAt passed
              ⟨oldAt + passed.length, newAt + passed.length, [e]⟩ rfl rfl
            simpa [runs, List.append_assoc] using next
          · intro oldAt newAt passed h oldStart newStart
            have next := ihSome oldAt newAt passed { h with edits := h.edits ++ [e] } oldStart
              newStart
            simpa [runs, List.append_assoc, Nat.add_assoc] using next
      | false =>
          obtain ⟨line, rfl⟩ : ∃ line, e = .keep line := by
            cases e with
            | keep line => exact ⟨line, rfl⟩
            | delete line => exact absurd (here rfl) (by simp)
            | insert line => exact absurd (here rfl) (by simp)
          constructor
          · intro oldAt newAt passed
            have next := ihNone oldAt newAt (passed ++ [line])
            simpa [runs, Edit.old?, Edit.new?, Nat.add_assoc] using next
          · intro oldAt newAt passed h oldStart newStart
            have next := ihNone (h.oldStart + (oldLines h.edits).length)
              (h.newStart + (newLines h.edits).length) [line]
            have ended : runs (some h) (h.oldStart + (oldLines h.edits).length)
                (h.newStart + (newLines h.edits).length) ((.keep line, false) :: rest) =
                h :: runs none (h.oldStart + (oldLines h.edits).length + 1)
                  (h.newStart + (newLines h.edits).length + 1) rest := rfl
            rw [ended, applyHunks_cons oldStart newStart]
            simp only [List.length_singleton, List.singleton_append] at next
            simp [Edit.old?, Edit.new?, next]

/-- The hunks of edits turn the old lines into the new ones. -/
theorem applyHunks_hunks (edits : List Edit) :
    applyHunks 0 0 (hunks edits) (oldLines edits) = some (newLines edits) := by
  have visible := visible_of_change edits 0
  simpa [hunks, map_fst_shown] using (applyHunks_runs (shown 0 edits) visible).1 0 0 []

/-- Taken back, they turn the new lines into the old ones. -/
theorem applyHunks_reversed (edits : List Edit) :
    applyHunks 0 0 ((hunks edits).map Hunk.reversed) (newLines edits) =
      some (oldLines edits) := by
  have back := applyHunks_hunks (edits.map Edit.reversed)
  rwa [hunks_reversed, oldLines_reversed, newLines_reversed] at back

end LiteralHoist.Patch
