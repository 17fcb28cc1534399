import LiteralHoist.Command.Files
import LiteralHoist.Consolidate.Run
import LiteralHoist.Document.Codec
import LiteralHoist.Source.Render

/-!
# Processing files

A file is read, decoded, and every unit of its document is run once.  What happens to one file does
not depend on the others.
-/

set_option autoImplicit false

namespace LiteralHoist.Command

open LiteralHoist.Consolidate LiteralHoist.Document LiteralHoist.Report LiteralHoist.Source

structure UnitTexts where
  label : Text
  before : Text
  after : Text
  deriving DecidableEq, Repr

structure Processed where
  codec : Codec
  document : LiteralHoist.Document
  units : List UnitTexts
  stats : Stats
  deriving DecidableEq, Repr

structure FileRun where
  name : Text
  processed : Option Processed := none
  error : Reported := .nothing
  log : List Event := []
  deriving DecidableEq, Repr

/-- What a unit is called in patches: its name, or its place in the document. -/
def unitLabel (index : Nat) (t : Tree) : Except Fault Text := do
  let name ← unitName t
  return if name = "" then "unit" ++ toString index else name

def runTrees (settings : Settings) : Nat → List Tree → Except Fault (List (UnitTexts × UnitRun))
  | _, [] => .ok []
  | index, t :: rest => do
    let label ← unitLabel index t
    let before ← t.render t.root
    let run ← runUnit settings t
    let after ← run.tree.render run.tree.root
    return (⟨label, before, after⟩, run) :: (← runTrees settings (index + 1) rest)

def gatherErrors (name : Text) (runs : List UnitRun) : Diagnostics :=
  runs.foldl (fun ds r => ds.reportIn name (.all r.errors)) {}

def processDocument (settings : Settings) (name : Text) (codec : Codec)
    (doc : LiteralHoist.Document) : Except Fault FileRun := do
  let results ← runTrees settings 0 doc.trees
  let runs := results.map Prod.snd
  return {
    name
    processed := some {
      codec
      document := { doc with trees := runs.map UnitRun.tree }
      units := results.map Prod.fst
      stats := (runs.map UnitRun.stats).foldl Stats.add {} }
    error := .all (gatherErrors name runs)
    log := runs.flatMap UnitRun.log }

def processFile (settings : Settings) (fs : Files) (name : Text) : Except Fault FileRun :=
  match Codec.ofFileName name with
  | .error ending =>
    .ok { name, error := .message (Codec.unknownEndingMessage ending) }
  | .ok codec =>
    match fs.read (Path.ofName name) with
    | .error e => .ok { name, error := .message e.message }
    | .ok bytes =>
      match Document.read codec bytes with
      | .error e => .ok { name, error := .message e.message }
      | .ok doc => processDocument settings name codec doc

def cancelledMessage : Text := "context canceled"

/-- Processes files, in the order of their names. -/
def processFiles (settings : Settings) (fs : Files) (cancelled : Bool) (names : List Text) :
    Except Fault (List FileRun) :=
  names.mapM fun name =>
    if cancelled then .ok { name, error := .message cancelledMessage }
    else processFile settings fs name

end LiteralHoist.Command
