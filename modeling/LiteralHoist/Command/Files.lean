import LiteralHoist.Text.Basic

/-!
# Files

The files that a run can see, below the current directory.  A path is followed component by
component; every component before the last has to be a directory.  The system may refuse to read
further files, and then says why.
-/

set_option autoImplicit false

namespace LiteralHoist.Command

inductive FileError where
  | missing (path : Text)
  | isDirectory (path : Text)
  | notDirectory (path : Text)
  | invalidPath (path : Text)
  | nameTooLong (path : Text)
  | other (reason : Text)
  deriving DecidableEq, Repr

def FileError.message : FileError → Text
  | .missing path => "open " ++ path ++ ": no such file or directory"
  | .isDirectory path => "read " ++ path ++ ": is a directory"
  | .notDirectory path => "open " ++ path ++ ": not a directory"
  | .invalidPath path => "open " ++ path ++ ": invalid argument"
  | .nameTooLong path => "open " ++ path ++ ": file name too long"
  | .other reason => reason

namespace Path

def slash : UInt8 := 47

def components (path : Text) : List Text :=
  (path.octets.splitOn slash).map Text.mk

def ofComponents (parts : List Text) : Text :=
  Text.intercalate "/" parts

/-- Adds a component to a path, given in reverse: one that stays changes nothing, and one that goes
up removes the last, if it can. -/
def step (above : List Text) (c : Text) : List Text :=
  if c = "" || c = "." then above
  else if c = ".." then
    match above with
    | [] => [c]
    | last :: rest => if last = ".." then c :: above else rest
  else c :: above

def clean (path : Text) : Text :=
  match ((components path).foldl step []).reverse with
  | [] => "."
  | parts => ofComponents parts

def ofName (name : Text) : Text :=
  if name.startsWith "/" then name else clean name

/-- The paths that lead to a path, the path itself last, each with its last component, where
`before` is what leads to the first component. -/
def leadingFrom (before : Text) : List Text → List (Text × Text)
  | [] => []
  | c :: rest => (before ++ c, c) :: leadingFrom (before ++ c ++ "/") rest

def leading (path : Text) : List (Text × Text) :=
  leadingFrom "" (components path)

end Path

structure Files where
  entries : List (Text × List UInt8) := []
  /-- The directories that are there besides those of the files. -/
  directories : List Text := []
  refused : List (Text × FileError) := []
  deriving DecidableEq, Repr, Inhabited

namespace Files

def content? (fs : Files) (path : Text) : Option (List UInt8) :=
  fs.entries.lookup path

def isAbove (path : Text) : Bool :=
  path = "" || path = "." || path = "/" || (Path.components path).all (· = "..")

def isDirectory (fs : Files) (path : Text) : Bool :=
  isAbove path || fs.directories.contains path ||
    fs.entries.any fun e => e.1.startsWith (path ++ "/")

def longestComponent : Nat := 255

def longestPath : Nat := 4095

/-- Why there is no file at a path: the first component that cannot be followed decides. -/
def absence (fs : Files) (path : Text) : FileError :=
  let blocks (step : Text × Text) : Bool :=
    longestComponent < step.2.size || !fs.isDirectory step.1
  match (Path.leading path).find? blocks with
  | none => .isDirectory path
  | some (reached, component) =>
    if longestComponent < component.size then .nameTooLong path
    else if (fs.content? reached).isSome then .notDirectory path
    else .missing path

def read (fs : Files) (path : Text) : Except FileError (List UInt8) :=
  if path.octets.contains 0 then .error (.invalidPath path)
  else if longestPath < path.size then .error (.nameTooLong path)
  else
    match fs.content? path with
    | some bytes => .ok bytes
    | none =>
      match fs.refused.lookup path with
      | some e => .error e
      | none => .error (fs.absence path)

def write (fs : Files) (path : Text) (bytes : List UInt8) : Files :=
  { fs with entries := fs.entries.map fun e => if e.1 = path then (path, bytes) else e }

end Files

end LiteralHoist.Command
