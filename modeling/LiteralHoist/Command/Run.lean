import LiteralHoist.Command.Completion
import LiteralHoist.Command.Process
import LiteralHoist.Patch.Colour
import LiteralHoist.Patch.Hunk
import LiteralHoist.Settings.Load

/-!
# Runs of the command

A run reads its options and settings, processes every file, and then goes through the results in
order: it names the files that change, writes them back, shows patches, or prints the units.  The
errors of all files are reported together at the end.
-/

set_option autoImplicit false

namespace LiteralHoist.Command

open LiteralHoist.Consolidate LiteralHoist.Document LiteralHoist.Report LiteralHoist.Source

structure Surroundings where
  files : Files := {}
  outputFailure : Option Text := none
  cancelled : Bool := false
  deriving DecidableEq, Repr

inductive CommandError where
  | usage (e : UsageError)
  | unreadable (e : FileError)
  | settings (path : Text) (e : Settings.LoadError)
  | nothingToComplete
  | output (reason : Text)
  | diagnostics (ds : Diagnostics)
  deriving DecidableEq, Repr

def CommandError.message : CommandError → Text
  | .usage e => e.message
  | .unreadable e => e.message
  | .settings path e => path ++ ": " ++ e.message
  | .nothingToComplete => "requires at least 1 arg(s), only received 0"
  | .output reason => reason
  | .diagnostics ds => ds.text

structure Progress where
  output : Text := ""
  log : List Event := []
  files : Files
  errors : Diagnostics := {}
  printed : Bool := false
  deriving DecidableEq, Repr

/-- A step of a run: it fails with what was done before. -/
abbrev Step := Except (CommandError × Progress)

def Progress.print (failure : Option Text) (p : Progress) (text : Text) : Step Progress :=
  match failure with
  | some reason => .error (.output reason, p)
  | none => .ok { p with output := p.output ++ text }

def showPatch (failure : Option Text) (color : Bool) (p : Progress) (u : UnitTexts) :
    Step Progress :=
  match Patch.unified? ("a/" ++ u.label) u.before ("b/" ++ u.label) u.after with
  | none => .ok p
  | some patch => p.print failure (if color then Patch.coloured patch else patch)

def showUnit (failure : Option Text) (p : Progress) (u : UnitTexts) : Step Progress := do
  let p ← p.print failure (if p.printed then "\n" ++ u.after else u.after)
  return { p with printed := true }

def writeBack (name : Text) (d : Processed) (p : Progress) : Except Fault Progress := do
  match ← d.document.write d.codec with
  | .ok bytes => return { p with files := p.files.write (Path.ofName name) bytes }
  | .error e => return { p with errors := p.errors.reportIn name (.message e.message) }

def showProcessed (failure : Option Text) (o : Options) (name : Text) (d : Processed)
    (p : Progress) : Except Fault (Step Progress) := do
  let p : Progress := { p with log := p.log ++ [.processed name d.stats] }
  match if o.list && d.stats.changed then p.print failure (name ++ "\n") else .ok p with
  | .error stop => return .error stop
  | .ok p =>
    let p ← if o.write && d.stats.changed then writeBack name d p else pure p
    return do
      let p ← if o.diff then d.units.foldlM (showPatch failure o.color) p else pure p
      if o.list || o.write || o.diff then return p else d.units.foldlM (showUnit failure) p

def showFile (failure : Option Text) (o : Options) (p : Progress) (r : FileRun) :
    Except Fault (Step Progress) := do
  let p := { p with errors := p.errors.reportIn r.name r.error }
  match r.processed with
  | none => return .ok p
  | some d => showProcessed failure o r.name d p

def showFiles (failure : Option Text) (o : Options) :
    Progress → List FileRun → Except Fault (Step Progress)
  | p, [] => .ok (.ok p)
  | p, r :: rest => do
    match ← showFile failure o p r with
    | .error stop => return .error stop
    | .ok p => showFiles failure o p rest

structure Outcome where
  output : Text := ""
  remark : Text := ""
  complaint : Text := ""
  log : List Event := []
  files : Files
  error : Option CommandError := none
  deriving DecidableEq, Repr

/-- The settings of a run: those of the file, if one is given, with those that flags override. -/
def settingsFor (fs : Files) (o : Options) : Except CommandError Settings := do
  let path := Path.ofName o.config
  let base ←
    if o.config = "" then pure {}
    else
      match fs.read path with
      | .error e => .error (.unreadable e)
      | .ok bytes =>
        match Settings.load bytes with
        | .error e => .error (.settings path e)
        | .ok s => pure s
  match (o.override base).validate with
  | .ok s => return s
  | .error reason => .error (.usage (.invalidSettings reason))

/-- The events that are logged: all of them, or only the warnings. -/
def logged (verbose : Bool) (log : List Event) : List Event :=
  log.filter (Event.reaches (if verbose then .debug else .warn))

def runFiles (w : Surroundings) (o : Options) (settings : Settings) : Except Fault Outcome := do
  let results ← processFiles settings w.files w.cancelled o.files
  let start : Progress := { files := w.files, log := results.flatMap FileRun.log }
  let outcome (p : Progress) (error : Option CommandError) : Outcome :=
    { output := p.output, log := logged o.verbose p.log, files := p.files, error }
  match ← showFiles w.outputFailure o start results with
  | .error (e, p) => return outcome p (some e)
  | .ok p => return outcome p (if p.errors.isEmpty then none else some (.diagnostics p.errors))

def sayOnly (w : Surroundings) (text : Text) : Outcome :=
  { files := w.files, output := if w.outputFailure.isSome then ⟨[]⟩ else text }

def runCompletion (w : Surroundings) (purposes : Bool) (line : List Text) : Outcome :=
  match Completion.ofLine line with
  | none => { files := w.files, error := some .nothingToComplete }
  | some c =>
    { sayOnly w (c.text purposes) with remark := c.remark, complaint := c.complaint }

def runExplanation (w : Surroundings) (args : List Text) : Outcome :=
  match Options.parse args with
  | .error e => { files := w.files, error := some (.usage e) }
  | .ok _ => sayOnly w completionHelpText

def runOptions (w : Surroundings) (o : Options) : Except Fault Outcome :=
  if o.help then .ok (sayOnly w helpText)
  else if o.files.isEmpty then .ok { files := w.files, error := some (.usage .noInputFiles) }
  else
    match settingsFor w.files o with
    | .error e => .ok { files := w.files, error := some e }
    | .ok settings => runFiles w o settings

def run (w : Surroundings) (args : List Text) : Except Fault Outcome :=
  match Request.ofArgs args with
  | .complete purposes line => .ok (runCompletion w purposes line)
  | .explain others => .ok (runExplanation w others)
  | .run =>
    match Options.parse args with
    | .error e => .ok { files := w.files, error := some (.usage e) }
    | .ok o => runOptions w o

def endLine (s : Text) : Text :=
  if Patch.isEnded s then s else s ++ "\n"

def CommandError.report (e : CommandError) : Text :=
  match e with
  | .usage u => commandName ++ ": " ++ u.message ++ "\n" ++ usageLine ++ "\n"
  | e => endLine (commandName ++ ": " ++ e.message)

def CommandError.status : CommandError → UInt32
  | .usage _ => 2
  | _ => 1

def Outcome.status (r : Outcome) : UInt32 :=
  match r.error with
  | none => 0
  | some e => e.status

def Outcome.report (r : Outcome) : Text :=
  match r.error with
  | none => ""
  | some e => e.report

end LiteralHoist.Command
