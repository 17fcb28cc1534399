import LiteralHoist.Settings.Basic
import LiteralHoist.Text.Integer
import LiteralHoist.Text.Quoted

/-!
# Flags

The flags of the command, and the ways in which a command line can be wrong.
-/

set_option autoImplicit false

namespace LiteralHoist.Command

inductive Flag where
  | color
  | config
  | diff
  | help
  | jobs
  | list
  | min
  | verbose
  | write
  deriving DecidableEq, Repr

namespace Flag

def all : List Flag :=
  [.color, .config, .diff, .help, .jobs, .list, .min, .verbose, .write]

def name : Flag → Text
  | .color => "color"
  | .config => "config"
  | .diff => "diff"
  | .help => "help"
  | .jobs => "jobs"
  | .list => "list"
  | .min => "min"
  | .verbose => "verbose"
  | .write => "write"

def letter? : Flag → Option Char
  | .diff => some 'd'
  | .help => some 'h'
  | .jobs => some 'j'
  | .list => some 'l'
  | .verbose => some 'v'
  | .write => some 'w'
  | .color | .config | .min => none

def purpose : Flag → Text
  | .color => "color diff output"
  | .config => "read settings from YAML `file`"
  | .diff => "display diffs instead of rewriting files"
  | .help => "help for dupconst"
  | .jobs => "process `n` files at a time (default GOMAXPROCS)"
  | .list => "list files whose classes would change"
  | .min => "minimum occurrences of a value (default 2)"
  | .verbose => "log every planned change"
  | .write => "write result to the source file instead of stdout"

def takesValue : Flag → Bool
  | .config | .jobs | .min => true
  | _ => false

def ofName? (s : Text) : Option Flag :=
  all.find? fun f => f.name == s

def ofLetter? (c : Char) : Option Flag :=
  all.find? fun f => f.letter? == some c

def label (f : Flag) : Text :=
  match f.letter? with
  | some c => "-" ++ Text.ofChars [c] ++ ", --" ++ f.name
  | none => "--" ++ f.name

end Flag

inductive BadValue where
  | notTruth (value : Text)
  | notInteger (value : Text) (reason : Text.IntegerError)
  deriving DecidableEq, Repr

def BadValue.message : BadValue → Text
  | .notTruth value =>
    "strconv.ParseBool: parsing " ++ Text.quoted value ++ ": invalid syntax"
  | .notInteger value reason =>
    "strconv.ParseInt: parsing " ++ Text.quoted value ++ ": " ++ reason.message

inductive UsageError where
  | unknownFlag (name : Text)
  | unknownLetter (letters : List Char)
  | missingValue (name : Text)
  | missingLetterValue (letters : List Char)
  | badFlag (arg : Text)
  | badValue (flag : Flag) (value : Text) (reason : BadValue)
  | noInputFiles
  | invalidSettings (reason : Settings.Invalid)
  deriving DecidableEq, Repr

/-- The first of some letters as messages show it: a letter that is not ASCII shows as the first
octet of its octets written anew. -/
def shownLetter (letters : List Char) : Char :=
  match letters with
  | [] => '\x00'
  | c :: _ => if c.toNat < 128 then c else '\u00c3'

def lettersLabel (letters : List Char) : Text :=
  Text.quotedSingle (shownLetter letters) ++ " in -" ++ Text.ofChars letters

def UsageError.reason : UsageError → Text
  | .unknownFlag name => "unknown flag: --" ++ name
  | .unknownLetter letters => "unknown shorthand flag: " ++ lettersLabel letters
  | .missingValue name => "flag needs an argument: --" ++ name
  | .missingLetterValue letters => "flag needs an argument: " ++ lettersLabel letters
  | .badFlag arg => "bad flag syntax: " ++ arg
  | .badValue flag value reason =>
    "invalid argument " ++ Text.quoted value ++ " for " ++ Text.quoted flag.label ++ " flag: " ++
      reason.message
  | .noInputFiles => "no input files"
  | .invalidSettings reason => reason.message

def UsageError.message (e : UsageError) : Text :=
  "usage: " ++ e.reason

end LiteralHoist.Command
