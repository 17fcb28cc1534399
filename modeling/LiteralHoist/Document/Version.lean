import LiteralHoist.Text.Basic

/-!
# Document versions

A version is written `v`, a major number, and optionally a minor number, a patch number, a
pre-release and a build.  Numbers have no leading zeros.  A pre-release and a build are made of
identifiers separated by points; an identifier of a pre-release that is a number has no leading
zeros either.
-/

set_option autoImplicit false

namespace LiteralHoist.Document.Version

def current : Text := "v1.0.0"

def pointed : List Char → List (List Char)
  | [] => [[]]
  | c :: rest =>
    if c = '.' then [] :: pointed rest
    else
      match pointed rest with
      | [] => [[c]]
      | part :: parts => (c :: part) :: parts

def isPlainNumber (ds : List Char) : Bool :=
  !ds.isEmpty && (ds.length == 1 || ds.head? != some '0')

def number? (cs : List Char) : Option (List Char × List Char) :=
  let ds := cs.takeWhile Char.isDigit
  if isPlainNumber ds then some (ds, cs.dropWhile Char.isDigit) else none

def isIdentifierChar (c : Char) : Bool :=
  c.isAlphanum || c == '-'

def isIdentifier (cs : List Char) : Bool :=
  !cs.isEmpty && cs.all isIdentifierChar

def isPreReleaseIdentifier (cs : List Char) : Bool :=
  isIdentifier cs && (!cs.all Char.isDigit || isPlainNumber cs)

/-- Whether a text is empty or a build with its mark. -/
def isBuild : List Char → Bool
  | [] => true
  | c :: rest => c == '+' && (pointed rest).all isIdentifier

def isEnding : List Char → Bool
  | '-' :: rest =>
    (pointed (rest.takeWhile (· != '+'))).all isPreReleaseIdentifier &&
      isBuild (rest.dropWhile (· != '+'))
  | cs => isBuild cs

def isTail (cs : List Char) : Bool :=
  match cs with
  | [] => true
  | '.' :: rest =>
    match number? rest with
    | some (_, []) => true
    | some (_, '.' :: rest) =>
      match number? rest with
      | some (_, rest) => isEnding rest
      | none => false
    | _ => false
  | _ => false

/-- The major number of a version, if the text is one. -/
def major? (s : Text) : Option Text :=
  match s.chars with
  | 'v' :: cs =>
    match number? cs with
    | some (ds, rest) => if isTail rest then some (Text.ofChars ds) else none
    | none => none
  | _ => none

end LiteralHoist.Document.Version
