import LiteralHoist.Proofs.Patch.Align
import LiteralHoist.Proofs.Patch.Written

/-!
# Faithful patches

A comparison gives two lines that name the texts, and the hunks of edits that turn the lines of one
text into those of the other.  The patch made from it has lines of its own in place of these two,
and its hunks turn each text into the other.
-/

set_option autoImplicit false

namespace LiteralHoist.Patch

/-- Whether a comparison of two texts gave two lines and the hunks of edits from the one to the
other. -/
def GivesHunks (old new given : Text) : Prop :=
  ∃ (first second : Text) (edits : List Edit),
    lineFeed ∉ first.octets ∧ lineFeed ∉ second.octets ∧
    oldLines edits = lines old ∧ newLines edits = lines new ∧
    given = first ++ "\n" ++ second ++ "\n" ++ Text.join ((hunks edits).map Hunk.text)

/-- What is relied on of a comparison.  A text with the octet zero may be taken for no text. -/
def Compares (compareTexts : Text → Text → Text) : Prop :=
  ∀ old new : Text, 0 ∉ old.octets → 0 ∉ new.octets → old ≠ new →
    GivesHunks old new (compareTexts old new)

/-- Whether a text is a patch of two texts: after the lines that name them, it turns each into the
other. -/
def IsPatch (oldName old newName new patch : Text) : Prop :=
  ∃ body : Text,
    patch = Text.join ["diff " ++ oldName ++ " " ++ newName ++ "\n", "--- " ++ oldName ++ "\n",
      "+++ " ++ newName ++ "\n", body] ∧
    patched? body old = some new ∧ unpatched? body new = some old

theorem afterLine?_append {line : Text} (free : lineFeed ∉ line.octets) (rest : Text) :
    afterLine? (line ++ "\n" ++ rest) = some rest := by
  have passed : ∀ b ∈ line.octets, decide (b ≠ lineFeed) = true :=
    fun b member => decide_eq_true fun same => free (same ▸ member)
  have found : (line.octets ++ lineFeed :: rest.octets).dropWhile (· ≠ lineFeed) =
      lineFeed :: rest.octets := by
    rw [List.dropWhile_append_of_pos passed, List.dropWhile_cons_of_neg (by simp)]
  have spelled : (line ++ "\n" ++ rest).octets = line.octets ++ lineFeed :: rest.octets :=
    List.append_assoc _ _ _
  rw [afterLine?, spelled, found]

theorem relabelled_eq (oldName newName : Text) {first second body : Text}
    (firstFree : lineFeed ∉ first.octets) (secondFree : lineFeed ∉ second.octets)
    (hunk : body.startsWith "@" = true) :
    relabelled oldName newName (first ++ "\n" ++ second ++ "\n" ++ body) =
      header oldName newName ++ body := by
  have after : (afterLine? (first ++ "\n" ++ second ++ "\n" ++ body)).bind afterLine? =
      some body := by
    rw [Text.append_assoc, Text.append_assoc, afterLine?_append firstFree, ← Text.append_assoc]
    exact afterLine?_append secondFree body
  rw [relabelled, after]
  exact if_pos hunk

theorem header_append (oldName newName body : Text) : header oldName newName ++ body =
    Text.join ["diff " ++ oldName ++ " " ++ newName ++ "\n", "--- " ++ oldName ++ "\n",
      "+++ " ++ newName ++ "\n", body] := by
  have old : Text.ofString "\n--- " = "\n" ++ "--- " := rfl
  have new : Text.ofString "\n+++ " = "\n" ++ "+++ " := rfl
  have joined (a b c d : Text) : Text.join [a, b, c, d] = a ++ (b ++ (c ++ d)) := by
    rw [Text.join_cons, Text.join_cons, Text.join_cons, Text.join_cons]
    exact congrArg (fun t => a ++ (b ++ (c ++ t))) (Text.append_empty d)
  simp only [header, old, new, joined, Text.append_assoc]

section Edits
variable {old new : Text} {edits : List Edit} (oldSide : oldLines edits = lines old)
  (newSide : newLines edits = lines new)
include oldSide newSide

theorem ofLines_edits : OfLines edits := by
  have oldLine {line : Text} (member : line ∈ oldLines edits) : IsLine line :=
    isLine_of_mem_lines (oldSide ▸ member)
  have newLine {line : Text} (member : line ∈ newLines edits) : IsLine line :=
    isLine_of_mem_lines (newSide ▸ member)
  intro e member
  cases e with
  | keep line => exact oldLine (List.mem_filterMap.mpr ⟨_, member, rfl⟩)
  | delete line => exact oldLine (List.mem_filterMap.mpr ⟨_, member, rfl⟩)
  | insert line => exact newLine (List.mem_filterMap.mpr ⟨_, member, rfl⟩)

theorem readPatch?_hunks :
    readPatch? (Text.join ((hunks edits).map Hunk.text)) = some (hunks edits) :=
  readPatch?_join fun _ member _ inside =>
    ofLines_edits oldSide newSide _ (mem_of_mem_hunks member inside)

theorem patched?_hunks : patched? (Text.join ((hunks edits).map Hunk.text)) old = some new := by
  rw [patched?, readPatch?_hunks oldSide newSide, ← oldSide]
  simp [applyHunks_hunks, newSide, join_lines]

theorem unpatched?_hunks : unpatched? (Text.join ((hunks edits).map Hunk.text)) new = some old := by
  rw [unpatched?, readPatch?_hunks oldSide newSide, ← newSide]
  simp [applyHunks_reversed, oldSide, join_lines]

theorem startsWith_hunks (differ : old ≠ new) :
    (Text.join ((hunks edits).map Hunk.text)).startsWith "@" = true := by
  have unchanged := applyHunks_hunks edits
  cases some : hunks edits with
  | nil =>
      rw [some, applyHunks, oldSide, newSide, Option.some_inj] at unchanged
      exact absurd (lines_injective unchanged) differ
  | cons h rest => rfl

end Edits

theorem isPatch_relabelled (oldName newName : Text) {old new given : Text} (differ : old ≠ new)
    (gives : GivesHunks old new given) :
    IsPatch oldName old newName new (relabelled oldName newName given) := by
  obtain ⟨first, second, edits, firstFree, secondFree, oldSide, newSide, rfl⟩ := gives
  have hunk := startsWith_hunks oldSide newSide differ
  refine ⟨_, ?_, patched?_hunks oldSide newSide, unpatched?_hunks oldSide newSide⟩
  rw [relabelled_eq oldName newName firstFree secondFree hunk, header_append]

theorem givesHunks_comparison {oldLabel newLabel : Text} (oldFree : lineFeed ∉ oldLabel.octets)
    (newFree : lineFeed ∉ newLabel.octets) (old new : Text) :
    GivesHunks old new (comparison oldLabel newLabel old new) := by
  obtain ⟨oldSide, newSide⟩ := lines_edits (lines old) (lines new)
  refine ⟨"--- " ++ oldLabel, "+++ " ++ newLabel, edits (lines old) (lines new), ?_, ?_,
    oldSide, newSide, ?_⟩
  · exact fun member => (List.mem_append.mp member).elim (by decide) oldFree
  · exact fun member => (List.mem_append.mp member).elim (by decide) newFree
  · have titles : Text.ofString "\n+++ " = "\n" ++ "+++ " := rfl
    simp only [comparison, titles, Text.append_assoc]

theorem compares_comparison {oldLabel newLabel : Text} (oldFree : lineFeed ∉ oldLabel.octets)
    (newFree : lineFeed ∉ newLabel.octets) : Compares (comparison oldLabel newLabel) :=
  fun old new _ _ _ => givesHunks_comparison oldFree newFree old new

/-- There is no patch only for texts that are the same.  Else the patch has the lines that name the
texts, and its hunks turn each of the texts into the other. -/
theorem patches_are_faithful {compareTexts : Text → Text → Text} (compares : Compares compareTexts)
    (oldName newName : Text) {old new : Text} (oldPlain : 0 ∉ old.octets)
    (newPlain : 0 ∉ new.octets) :
    (patchBy? compareTexts oldName old newName new = none ↔ old = new) ∧
      (old ≠ new → ∃ patch, patchBy? compareTexts oldName old newName new = some patch ∧
        IsPatch oldName old newName new patch) := by
  refine ⟨?_, fun differ => ⟨_, if_neg differ, ?_⟩⟩
  · rw [patchBy?]
    split <;> simp [*]
  · exact isPatch_relabelled oldName newName differ (compares old new oldPlain newPlain differ)

/-- The only line of a text, which is not ended, is taken away. -/
theorem emptied_patch_faithful :
    ∃ patch, patchBy? (comparison "/tmp/1" "/tmp/2") "a/T" "x" "b/T" "" = some patch ∧
      IsPatch "a/T" "x" "b/T" "" patch :=
  (patches_are_faithful (compares_comparison (by decide) (by decide)) "a/T" "b/T" (by decide)
    (by decide)).2 (by decide)

theorem unified?_isPatch (oldName newName : Text) {old new : Text} (differ : old ≠ new) :
    ∃ patch, unified? oldName old newName new = some patch ∧
      IsPatch oldName old newName new patch :=
  ⟨_, if_neg differ, isPatch_relabelled oldName newName differ
    (givesHunks_comparison (by decide) (by decide) old new)⟩

end LiteralHoist.Patch
