import LiteralHoist.Command.Help
import LiteralHoist.Command.Options

/-!
# Completion of command lines

A shell may ask for the ways in which a command line can go on.  It passes the line so far, after a
word of its own, and the last argument is the one to be completed.  Names of flags are offered, and
the shell is told whether to offer names of files as well.
-/

set_option autoImplicit false

namespace LiteralHoist.Command

def isBareFlag (arg : Text) : Bool :=
  arg.startsWith "-" && !arg.octets.contains 61

/-- Whether an argument is a flag whose value is the next argument.  So is taken every flag that is
not known as a switch, and help is not known yet. -/
def takesNext (arg : Text) : Bool :=
  let isSwitch (flag : Option Flag) : Bool :=
    match flag with
    | some f => !f.takesValue && f ≠ .help
    | none => false
  isBareFlag arg &&
    match arg.chars with
    | '-' :: '-' :: name => !isSwitch (Flag.ofName? (Text.ofChars name))
    | ['-', c] => c.toNat < 128 && !isSwitch (Flag.ofLetter? c)
    | _ => false

/-- The first argument that is neither a flag nor the value of one, and the arguments without
it. -/
def firstWord? : List Text → Option (Text × List Text)
  | [] => none
  | arg :: rest =>
    let later (before : List Text) (found : Option (Text × List Text)) :=
      found.map fun (word, others) => (word, before ++ others)
    if arg = "--" then none
    else if takesNext arg then
      match rest with
      | value :: next :: more => later [arg, value] (firstWord? (next :: more))
      | _ => none
    else if arg.isEmpty || arg.startsWith "-" then later [arg] (firstWord? rest)
    else some (arg, rest)

structure Completion where
  offers : List (Text × Text) := []
  names : Bool := true
  trouble : Option Text := none
  deriving DecidableEq, Repr

namespace Completion

def flag? (name : List UInt8) : Option Flag :=
  match name with
  | [letter] => Flag.ofLetter? (Char.ofNat letter.toNat)
  | name => Flag.ofName? ⟨name⟩

/-- The name of the flag in an argument that starts with dashes: all of it after two dashes, and
else its last letter. -/
def nameIn (octets : List UInt8) : List UInt8 :=
  match octets with
  | 45 :: 45 :: name => name
  | octets => octets.drop (octets.length - 1)

def isFlag (arg : Text) : Bool :=
  match arg.octets with
  | 45 :: 45 :: rest => !rest.isEmpty
  | 45 :: rest => !rest.isEmpty
  | _ => false

inductive Subject where
  | word
  | value
  | unknown (name : Text)
  deriving DecidableEq, Repr

/-- What is being completed after the value sign in the last argument, or after the last of the
earlier arguments; gives the arguments that are whole. -/
def subject (given : List Text) (last : Text) : Subject × List Text :=
  let start := last.octets.takeWhile (· ≠ 61)
  let hasValue := start.length < last.size
  let name := if last.startsWith "-" && hasValue then nameIn start else []
  if last.startsWith "-" && !hasValue then (.word, given)
  else if !name.isEmpty then
    if (flag? name).isSome then (.value, given) else (.unknown ⟨name⟩, given)
  else
    match given.getLast? with
    | none => (.word, given)
    | some before =>
      if isFlag before && isBareFlag before then
        match flag? (nameIn before.octets) with
        | none => (.unknown ⟨nameIn before.octets⟩, given)
        | some flag => if flag.takesValue then (.value, given.dropLast) else (.word, given)
      else (.word, given)

def spellings (start : Text) (flag : Flag) : List (Text × Text) :=
  let long := "--" ++ flag.name
  let short := (flag.letter?.map fun c => "-" ++ Text.ofChars [c]).toList
  ((long :: short).filter fun s => s.startsWith start).map fun s => (s, flag.purpose)

def endsFlags (o : Options) (given : List Text) : Bool :=
  match Options.parse (given ++ [("--" : Text)]) with
  | .ok more => o.files.length < more.files.length
  | .error _ => false

def offer (given : List Text) (last : Text) : Completion :=
  let (subject, whole) := subject given last
  match Options.parse whole with
  | .error e =>
    { trouble := some ("Error while parsing flags from args [" ++ Text.intercalate " " whole ++
        "]: " ++ e.reason) }
  | .ok o =>
    let ended := endsFlags o whole
    match subject, ended with
    | .unknown name, false =>
      { trouble := some ("Subcommand '" ++ commandName ++ "' does not support flag '" ++ name ++
          "'") }
    | subject, ended =>
      if o.given.contains .help then { names := false }
      else if subject = .word && !ended && isBareFlag last then
        { offers := (Flag.all.filter fun f => !o.given.contains f).flatMap (spellings last)
          names := false }
      else {}

def explainer : Text × Text :=
  ("completion", "Generate the autocompletion script for the specified shell")

def among (names : List (Text × Text)) (last : Text) : Completion :=
  { offers := names.filter fun n => n.1.startsWith last, names := false }

def ofLine (line : List Text) : Option Completion :=
  match line.getLast? with
  | none => none
  | some last =>
    some (
      if line = [explainer.1] then among [explainer] last
      else if line.dropLast = [explainer.1] && !last.startsWith "-" then among shells last
      else offer line.dropLast last)

def text (c : Completion) (purposes : Bool) : Text :=
  let line (o : Text × Text) : Text := if purposes then o.1 ++ "\t" ++ o.2 else o.1
  Text.join (c.offers.map fun o => line o ++ "\n") ++ (if c.names then ":0\n" else ":4\n")

def remark (c : Completion) : Text :=
  "Completion ended with directive: " ++
    (if c.names then ("ShellCompDirectiveDefault" : Text) else "ShellCompDirectiveNoFileComp") ++
    "\n"

def complaint (c : Completion) : Text :=
  match c.trouble with
  | none => ""
  | some reason => "[Debug] [Error] " ++ reason ++ "\n"

end Completion

inductive Request where
  | run
  | complete (purposes : Bool) (line : List Text)
  | explain (args : List Text)
  deriving DecidableEq, Repr

def Request.ofArgs (args : List Text) : Request :=
  match firstWord? args with
  | none => .run
  | some (word, others) =>
    if word = "__complete" then .complete true others
    else if word = "__completeNoDesc" then .complete false others
    else if word = Completion.explainer.1 then .explain others
    else .run

end LiteralHoist.Command
