import LiteralHoist.Command.Flag

/-!
# Options

The options of a run are read from its arguments.  Flags and names of files may be mixed; after two
dashes alone everything is a name.  Of a flag that stands twice the last value counts.
-/

set_option autoImplicit false

namespace LiteralHoist.Command

structure Options where
  write : Bool := false
  list : Bool := false
  diff : Bool := false
  color : Bool := false
  verbose : Bool := false
  help : Bool := false
  config : Text := ""
  jobs : Option Int := none
  minOccurrences : Option Int := none
  files : List Text := []
  given : List Flag := []
  deriving DecidableEq, Repr, Inhabited

namespace Options

def truthValue (flag : Flag) (value : Text) : Except UsageError Bool :=
  match Text.truth? value with
  | some b => .ok b
  | none => .error (.badValue flag value (.notTruth value))

def integerValue (flag : Flag) (value : Text) : Except UsageError Int :=
  match Text.integer value.chars with
  | .ok n => .ok n
  | .error reason => .error (.badValue flag value (.notInteger value reason))

def set (o : Options) (flag : Flag) (value : Text) : Except UsageError Options := do
  let o := { o with given := flag :: o.given }
  match flag with
  | .color => return { o with color := ← truthValue flag value }
  | .config => return { o with config := value }
  | .diff => return { o with diff := ← truthValue flag value }
  | .help => return { o with help := ← truthValue flag value }
  | .jobs => return { o with jobs := some (← integerValue flag value) }
  | .list => return { o with list := ← truthValue flag value }
  | .min => return { o with minOccurrences := some (← integerValue flag value) }
  | .verbose => return { o with verbose := ← truthValue flag value }
  | .write => return { o with write := ← truthValue flag value }

def addFiles (o : Options) (names : List Text) : Options :=
  { o with files := o.files ++ names }

structure Waiting where
  flag : Flag
  missing : UsageError
  deriving DecidableEq, Repr

def splitValue (s : List Char) : Text × Option Text :=
  let name := Text.ofChars (s.takeWhile (· ≠ '='))
  match s.dropWhile (· ≠ '=') with
  | [] => (name, none)
  | _ :: value => (name, some (Text.ofChars value))

/-- Reads a flag after two dashes; gives the flag that still waits for its value. -/
def setNamed (o : Options) (arg : Text) (s : List Char) :
    Except UsageError (Options × Option Waiting) := do
  match s with
  | [] => .error (.badFlag arg)
  | c :: _ =>
    if c = '-' || c = '=' then .error (.badFlag arg)
    else
      let (name, value) := splitValue s
      match Flag.ofName? name with
      | none => .error (.unknownFlag name)
      | some flag =>
        match value with
        | some value => return (← o.set flag value, none)
        | none =>
          if flag.takesValue then return (o, some ⟨flag, .missingValue name⟩)
          else return (← o.set flag "true", none)

/-- Letters that start so belong to another tool and are passed over. -/
def foreignStart : Text := "test."

/-- Reads flags by their letters after one dash.  A switch may be followed by more letters; a value
follows an equals sign, or the letter of a flag that takes one. -/
def setLetters (o : Options) : List Char → Except UsageError (Options × Option Waiting)
  | [] => .ok (o, none)
  | c :: rest =>
    if foreignStart.chars.isPrefixOf (c :: rest) then .ok (o, none)
    else
      match Flag.ofLetter? c with
      | none => .error (.unknownLetter (c :: rest))
      | some flag =>
        match rest with
        | '=' :: v :: value => do return (← o.set flag (Text.ofChars (v :: value)), none)
        | rest =>
          if !flag.takesValue then
            match o.set flag "true" with
            | .error e => .error e
            | .ok o => o.setLetters rest
          else if rest.isEmpty then .ok (o, some ⟨flag, .missingLetterValue (c :: rest)⟩)
          else do return (← o.set flag (Text.ofChars rest), none)
termination_by letters => letters.length

def readArg (o : Options) (arg : Text) : Except UsageError (Options × Option Waiting) :=
  match arg.chars with
  | '-' :: '-' :: s => o.setNamed arg s
  | '-' :: c :: rest => o.setLetters (c :: rest)
  | _ => .ok (o.addFiles [arg], none)

def readArgs (o : Options) : Option Waiting → List Text → Except UsageError Options
  | none, [] => .ok o
  | some w, [] => .error w.missing
  | some w, arg :: rest =>
    match o.set w.flag arg with
    | .error e => .error e
    | .ok o => o.readArgs none rest
  | none, arg :: rest =>
    if arg = "--" then .ok (o.addFiles rest)
    else
      match o.readArg arg with
      | .error e => .error e
      | .ok (o, waiting) => o.readArgs waiting rest

def parse (args : List Text) : Except UsageError Options :=
  ({} : Options).readArgs none args

def override (o : Options) (s : Settings) : Settings :=
  { s with
    jobs := o.jobs.getD s.jobs
    minOccurrences := o.minOccurrences.getD s.minOccurrences }

end Options

end LiteralHoist.Command
