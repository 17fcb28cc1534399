import LiteralHoist.Command.Run

/-!
# The command line

Reads the files that the arguments name, runs the command on them, and prints and writes what the
run leaves.
-/

set_option autoImplicit false

namespace LiteralHoist.Command

def neededPaths (args : List Text) : List Text :=
  match Options.parse args with
  | .error _ => []
  | .ok o =>
    let names := if o.config = "" then o.files else o.config :: o.files
    (names.map Path.ofName).eraseDups

/-- The number under which the system reports a directory where a file is read. -/
def directoryCode : UInt32 := 21

def refusal (path : Text) : IO.Error → FileError
  | .noFileOrDirectory .. => .missing path
  | .inappropriateType _ code _ =>
    if code = directoryCode then .isDirectory path else .notDirectory path
  | e => .other ("open " ++ path ++ ": " ++ Text.ofString (toString e))

def loadFiles (paths : List Text) : IO Files :=
  paths.foldlM (fun (fs : Files) (path : Text) => do
    match ← (IO.FS.readBinFile path.toString).toBaseIO with
    | .ok bytes => return { fs with entries := fs.entries ++ [(path, bytes.toList)] }
    | .error e => return { fs with refused := fs.refused ++ [(path, refusal path e)] }) {}

def packed (octets : List UInt8) : ByteArray :=
  ByteArray.mk octets.toArray

def storeFiles (before after : Files) : IO Unit :=
  after.entries.forM fun (path, bytes) => do
    if before.content? path ≠ some bytes then
      IO.FS.writeBinFile path.toString (packed bytes)

def putText (stream : IO.FS.Stream) (t : Text) : IO Unit := do
  stream.write (packed t.octets)
  stream.flush

def finish (files : Files) (r : Outcome) : IO UInt32 := do
  let errors ← IO.getStderr
  r.log.forM fun e => putText errors e.line
  storeFiles files r.files
  putText (← IO.getStdout) r.output
  putText errors (r.complaint ++ r.remark ++ r.report)
  return r.status

def runFromSystem (args : List Text) : IO UInt32 := do
  let files ← loadFiles (neededPaths args)
  match run { files } args with
  | .ok r => finish files r
  | .error f =>
    let reason : Text := f.message.getD "the tree cannot be followed"
    putText (← IO.getStderr) (commandName ++ ": " ++ reason ++ "\n")
    return 2

end LiteralHoist.Command

def main (args : List String) : IO UInt32 :=
  LiteralHoist.Command.runFromSystem (args.map LiteralHoist.Text.ofString)
