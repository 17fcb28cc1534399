import LiteralHoist.Command.Files
import LiteralHoist.Document.Codec
import LiteralHoist.Proofs.Text.Ascii
import Mathlib.Data.List.TakeWhile

/-!
# Endings of paths

A name whose ending selects an encoding stands for a path with the same ending: the last component
of such a name is neither empty nor one that stays or goes up, so it is the last component of the
path as well.  Names of the same file that have an encoding therefore have the same.
-/

set_option autoImplicit false

namespace LiteralHoist.Command

open LiteralHoist.Document

def EndsIn (path last : Text) : Prop :=
  Path.slash ∉ last.octets ∧
    (path = last ∨ ∃ before, path.octets = before ++ Path.slash :: last.octets)

theorem extension_of_endsIn {path last : Text} (ends : EndsIn path last) :
    Codec.extension path = Codec.extension last := by
  obtain ⟨single, rfl | ⟨before, octets⟩⟩ := ends
  · rfl
  · have absent : '/' ∉ last.chars := Text.not_mem_chars (by decide) (by decide) single
    have chars : path.chars = (Text.mk before).chars ++ '/' :: last.chars := by
      rw [show path = ⟨before ++ Path.slash :: last.octets⟩ from congrArg Text.mk octets]
      exact Text.chars_append_ascii (by decide) before last.octets
    have keep : ∀ c ∈ last.chars.reverse, decide (c ≠ '/') = true := by
      intro c member
      rw [List.mem_reverse] at member
      simpa using fun same : c = '/' => absent (same ▸ member)
    have component : path.chars.reverse.takeWhile (· ≠ '/') =
        last.chars.reverse.takeWhile (· ≠ '/') := by
      rw [chars, List.reverse_append, List.reverse_cons, List.append_assoc,
        List.takeWhile_append_of_pos keep, List.takeWhile_eq_self_iff.mpr keep]
      simp
    rw [Codec.extension, Codec.extension, component]

theorem ofFileName_of_endsIn {path last : Text} (ends : EndsIn path last) :
    Codec.ofFileName path = Codec.ofFileName last := by
  rw [Codec.ofFileName, Codec.ofFileName, extension_of_endsIn ends]

theorem exists_endsIn (path : Text) :
    ∃ before last, Path.components path = before ++ [last] ∧ EndsIn path last := by
  by_cases divided : Path.slash ∈ path.octets
  · obtain ⟨after, before, reversed, absent⟩ :=
      List.eq_append_cons_of_mem (List.mem_reverse.mpr divided)
    have octets : path.octets = before.reverse ++ Path.slash :: after.reverse := by
      rw [← List.reverse_reverse path.octets, reversed]
      simp
    have single : Path.slash ∉ after.reverse := fun member => absent (List.mem_reverse.mp member)
    refine ⟨(before.reverse.splitOn Path.slash).map Text.mk, ⟨after.reverse⟩, ?_, single,
      .inr ⟨_, octets⟩⟩
    rw [Path.components, octets, List.splitOn, List.splitOnP_append_cons _ _ (by simp),
      List.map_append]
    congr 1
    exact congrArg (List.map Text.mk) (List.splitOn_eq_singleton single)
  · exact ⟨[], path, by rw [Path.components, List.splitOn_eq_singleton divided]; rfl, divided,
      .inl rfl⟩

theorem octets_ofComponents_cons (first second : Text) (rest : List Text) :
    (Path.ofComponents (first :: second :: rest)).octets =
      first.octets ++ Path.slash :: (Path.ofComponents (second :: rest)).octets := by
  rw [Path.ofComponents, Text.intercalate, List.map_cons, List.map_cons,
    List.intercalate_cons_cons]
  simp [Path.ofComponents, Text.intercalate, Path.slash]
  rfl

theorem endsIn_ofComponents {last : Text} (single : Path.slash ∉ last.octets)
    (before : List Text) : EndsIn (Path.ofComponents (before ++ [last])) last := by
  refine ⟨single, ?_⟩
  induction before with
  | nil => exact .inl (by simp [Path.ofComponents, Text.intercalate])
  | cons first rest ih =>
      obtain ⟨second, more, parts⟩ : ∃ second more, rest ++ [last] = second :: more :=
        List.exists_cons_of_ne_nil (by simp)
      right
      rw [List.cons_append, parts, octets_ofComponents_cons, ← parts]
      obtain same | ⟨front, octets⟩ := ih
      · exact ⟨first.octets, by rw [same]⟩
      · exact ⟨first.octets ++ Path.slash :: front, by rw [octets]; simp⟩

/-- A component that is neither empty nor one that stays or goes up remains the last one. -/
theorem endsIn_clean {path last : Text} {before : List Text}
    (parts : Path.components path = before ++ [last]) (single : Path.slash ∉ last.octets)
    (named : last ≠ "" ∧ last ≠ "." ∧ last ≠ "..") : EndsIn (Path.clean path) last := by
  obtain ⟨first, rest, steps⟩ : ∃ first rest,
      (before.foldl Path.step []).reverse ++ [last] = first :: rest :=
    List.exists_cons_of_ne_nil (by simp)
  have ends := endsIn_ofComponents single (before.foldl Path.step []).reverse
  have kept : ((Path.components path).foldl Path.step []).reverse = first :: rest := by
    rw [parts, List.foldl_append, List.foldl_cons, List.foldl_nil, ← steps]
    simp [Path.step.eq_def, named]
  rw [Path.clean, kept]
  rwa [steps] at ends

theorem ofFileName_ofName {name : Text} {codec : Codec}
    (typed : Codec.ofFileName name = .ok codec) :
    Codec.ofFileName (Path.ofName name) = .ok codec := by
  rw [Path.ofName]
  split
  · exact typed
  · obtain ⟨before, last, parts, ends⟩ := exists_endsIn name
    rw [ofFileName_of_endsIn ends] at typed
    have untyped : ∀ other ∈ (["", ".", ".."] : List Text),
        (Codec.ofFileName other).toOption = none := by decide +kernel
    have named : last ∉ (["", ".", ".."] : List Text) := by
      intro member
      have absent := untyped last member
      simp [typed, Except.toOption] at absent
    simp only [List.mem_cons, List.not_mem_nil, or_false, not_or] at named
    rw [ofFileName_of_endsIn (endsIn_clean parts ends.1 named)]
    exact typed

end LiteralHoist.Command
