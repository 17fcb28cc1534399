import LiteralHoist.Command.Run
import LiteralHoist.Proofs.Command.Process

/-!
# Batches of files

A run that writes goes through its files one after the other.  After any of them, the files so far
that hold a document have been rewritten, and everything else is as it was: what is to stand in a
file depends on that file and the settings only, so a file that is named again is written the same.
A document that is refused by its encoding is reported, and its file is left as it is.
-/

set_option autoImplicit false

namespace LiteralHoist.Command

open LiteralHoist.Consolidate LiteralHoist.Document LiteralHoist.Report LiteralHoist.Source

/-! ## Contents -/

section Contents
variable {fs : Files} {path : Text}

theorem content?_of_read {bytes : List UInt8} (found : fs.read path = .ok bytes) :
    fs.content? path = some bytes := by
  rw [Files.read] at found
  split at found
  · contradiction
  · split at found
    · contradiction
    · split at found
      · rename_i bytes' content
        rw [content, Except.ok.inj found]
      · split at found <;> contradiction

def settled (fs : Files) (path : Text) : Except DocumentError (List UInt8) → Files
  | .ok new => fs.write path new
  | .error _ => fs

end Contents

/-- The files of a list of names that hold a document have been rewritten, and no others. -/
structure Rewrote (settings : Settings) (fs : Files) (names : List Text) (files : Files) :
    Prop where
  documents : ∀ name ∈ names, ∀ {codec bytes doc}, HoldsDocument fs name codec bytes doc →
    ∃ new, rewritten settings codec bytes = .ok new ∧
      files.content? (Path.ofName name) = some new
  others : ∀ path, (∀ name ∈ names, Path.ofName name = path → ¬ IsDocument fs name) →
    files.content? path = fs.content? path

section Step
variable {settings : Settings} {fs : Files} {names : List Text} {files : Files} {name : Text}

theorem Rewrote.skip (before : Rewrote settings fs names files)
    (none : ¬ IsDocument fs name) : Rewrote settings fs (names ++ [name]) files where
  documents := by
    intro name' member codec bytes doc holds
    rw [List.mem_append, List.mem_singleton] at member
    rcases member with earlier | rfl
    · exact before.documents name' earlier holds
    · exact absurd ⟨codec, bytes, doc, holds⟩ none
  others path absent :=
    before.others path fun name' earlier => absent name' (List.mem_append_left _ earlier)

/-- A file that holds a document has its old content, or has been rewritten under another name. -/
theorem Rewrote.content (before : Rewrote settings fs names files) {codec : Codec}
    {bytes new : List UInt8} {doc : LiteralHoist.Document}
    (holds : HoldsDocument fs name codec bytes doc)
    (made : rewritten settings codec bytes = .ok new) :
    files.content? (Path.ofName name) = some bytes ∨
      files.content? (Path.ofName name) = some new := by
  by_cases earlier : ∃ name' ∈ names, Path.ofName name' = Path.ofName name ∧ IsDocument fs name'
  · obtain ⟨name', member, same, codec', bytes', doc', holds'⟩ := earlier
    obtain ⟨rfl, rfl, rfl⟩ := holds.unique holds' same.symm
    obtain ⟨new', made', content⟩ := before.documents name' member holds'
    right
    rw [← same, content, Except.ok.inj (made'.symm.trans made)]
  · left
    rw [before.others _ fun name' member same isDocument =>
      earlier ⟨name', member, same, isDocument⟩]
    exact content?_of_read holds.found

/-- Rewriting one more file. -/
theorem Rewrote.add (before : Rewrote settings fs names files) {codec : Codec}
    {bytes new : List UInt8} {doc : LiteralHoist.Document}
    (holds : HoldsDocument fs name codec bytes doc)
    (made : rewritten settings codec bytes = .ok new)
    {files' : Files} (here : files'.content? (Path.ofName name) = some new)
    (elsewhere : ∀ path ≠ Path.ofName name, files'.content? path = files.content? path) :
    Rewrote settings fs (names ++ [name]) files' where
  documents := by
    intro name' member codec' bytes' doc' holds'
    by_cases same : Path.ofName name' = Path.ofName name
    · obtain ⟨rfl, rfl, rfl⟩ := holds.unique holds' same.symm
      exact ⟨new, made, same ▸ here⟩
    · rw [List.mem_append, List.mem_singleton] at member
      rcases member with earlier | rfl
      · rw [elsewhere _ same]
        exact before.documents name' earlier holds'
      · exact absurd rfl same
  others := by
    intro path absent
    have different : path ≠ Path.ofName name := by
      rintro rfl
      exact absent name (by simp) rfl ⟨codec, bytes, doc, holds⟩
    rw [elsewhere path different]
    exact before.others path fun name' earlier => absent name' (List.mem_append_left _ earlier)

end Step

/-! ## Showing what came of files -/

section Show
variable {failure : Option Text} {o : Options}

end Show

/-! ## Batches -/

section Batch
variable {settings : Settings} {fs : Files} {failure : Option Text} {o : Options}

end Batch

end LiteralHoist.Command
