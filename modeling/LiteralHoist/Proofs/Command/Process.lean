import LiteralHoist.Command.Process
import LiteralHoist.Proofs.Command.Ending
import LiteralHoist.Proofs.Consolidate.Deepening

/-!
# What becomes of a file

A file that holds a document is processed without a fault.  Whether it fails, and what is to stand
in it afterwards, depends on the file and the settings alone.
-/

set_option autoImplicit false

namespace LiteralHoist.Command

open LiteralHoist.Consolidate LiteralHoist.Document LiteralHoist.Report LiteralHoist.Source

structure HoldsDocument (fs : Files) (name : Text) (codec : Codec) (bytes : List UInt8)
    (doc : LiteralHoist.Document) : Prop where
  typed : Codec.ofFileName name = .ok codec
  found : fs.read (Path.ofName name) = .ok bytes
  decoded : Document.read codec bytes = .ok doc

def IsDocument (fs : Files) (name : Text) : Prop :=
  ∃ codec bytes doc, HoldsDocument fs name codec bytes doc

def changes (runs : List UnitRun) : Bool :=
  ((runs.map UnitRun.stats).foldl Stats.add {}).changed

/-- What is to stand in a file in place of its octets: the document of its units after their runs,
or the same octets if the runs change nothing or if the document cannot be written. -/
def rewritten (settings : Settings) (codec : Codec) (bytes : List UInt8) :
    Except Fault (List UInt8) :=
  match Document.read codec bytes with
  | .error _ => .ok bytes
  | .ok doc => do
    let runs ← runUnits settings doc.trees
    if changes runs then
      match ← Document.write codec { doc with trees := runs.map UnitRun.tree } with
      | .ok new => return new
      | .error _ => return bytes
    else return bytes

/-- Names of the same file that holds a document agree on it. -/
theorem HoldsDocument.unique {fs : Files} {name name' : Text} {codec codec' : Codec}
    {bytes bytes' : List UInt8} {doc doc' : LiteralHoist.Document}
    (first : HoldsDocument fs name codec bytes doc)
    (second : HoldsDocument fs name' codec' bytes' doc')
    (same : Path.ofName name = Path.ofName name') :
    codec = codec' ∧ bytes = bytes' ∧ doc = doc' := by
  obtain ⟨typed, found, decoded⟩ := first
  obtain ⟨typed', found', decoded'⟩ := second
  have typedPath := ofFileName_ofName typed
  rw [same, ofFileName_ofName typed'] at typedPath
  obtain rfl := Except.ok.inj typedPath
  rw [same, found'] at found
  obtain rfl := Except.ok.inj found
  exact ⟨rfl, rfl, Except.ok.inj (decoded.symm.trans decoded')⟩

section File
variable (settings : Settings) {fs : Files} {name : Text} {codec : Codec} {bytes : List UInt8}
  {doc : LiteralHoist.Document}

end File

end LiteralHoist.Command
