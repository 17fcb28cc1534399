import LiteralHoist.Consolidate.Plan

/-!
# Diagnostics

What goes wrong is gathered in a list of diagnostics, each with the place it belongs to.  The list
keeps one diagnostic for each place and message.  Its text names them in the order of their
places, and names a message that occurs very often only once.
-/

set_option autoImplicit false

namespace LiteralHoist.Report

open LiteralHoist.Source LiteralHoist.Consolidate

structure Notice where
  file : Text := ""
  pos : Position := {}
  msg : Text := ""
  deriving DecidableEq, Repr, Inhabited

namespace Notice

def location (n : Notice) : Text :=
  if n.file ≠ "" then
    if n.pos.isKnown then n.file ++ ":" ++ n.pos.text else n.file
  else if n.pos.isKnown then n.pos.text
  else ""

def textWith (n : Notice) (msg : Text) : Text :=
  if n.location = "" then msg else n.location ++ ": " ++ msg

def text (n : Notice) : Text :=
  n.textWith n.msg

/-- Whether a notice does not come after another: by file, then line, then column. -/
def notAfter (a b : Notice) : Bool :=
  if a.file ≠ b.file then a.file < b.file
  else if a.pos.line ≠ b.pos.line then a.pos.line < b.pos.line
  else a.pos.col ≤ b.pos.col

end Notice

structure Diagnostic extends Notice where
  secondary : List Notice := []
  deriving DecidableEq, Repr, Inhabited

namespace Diagnostic

def inFile (file : Text) (d : Diagnostic) : Diagnostic :=
  if d.file = "" then { d with file } else d

def ofUnresolved (file : Text) (e : Unresolved) : Diagnostic :=
  { file, pos := e.pos, msg := e.message }

def textWith (d : Diagnostic) (msg : Text) : Text :=
  d.toNotice.textWith msg ++ Text.join (d.secondary.map fun n => "\n\t" ++ n.text)

end Diagnostic

structure Diagnostics where
  entries : List Diagnostic := []
  deriving DecidableEq, Repr, Inhabited

inductive Reported where
  | nothing
  | message (msg : Text)
  | diagnostic (d : Diagnostic)
  | unresolved (e : Unresolved)
  | all (ds : Diagnostics)
  deriving DecidableEq, Repr

/-- The diagnostics that a report consists of; those without a file belong to `file`. -/
def Reported.diagnostics (file : Text) : Reported → List Diagnostic
  | .nothing => []
  | .message msg => [{ file, msg }]
  | .diagnostic d => [d.inFile file]
  | .unresolved e => [.ofUnresolved file e]
  | .all ds => ds.entries.map (Diagnostic.inFile file)

namespace Diagnostics

def size (ds : Diagnostics) : Nat :=
  ds.entries.length

def isEmpty (ds : Diagnostics) : Bool :=
  ds.entries.isEmpty

/-- Appends a diagnostic, unless there is one with its place and message. -/
def insert (ds : Diagnostics) (d : Diagnostic) : Diagnostics :=
  if ds.entries.any fun e => e.toNotice == d.toNotice then ds
  else ⟨ds.entries ++ [d]⟩

def reportIn (ds : Diagnostics) (file : Text) (r : Reported) : Diagnostics :=
  (r.diagnostics file).foldl insert ds

def report (ds : Diagnostics) (r : Reported) : Diagnostics :=
  ds.reportIn "" r

/-- The list in the order of the places; what has the same place keeps its order. -/
def sorted (ds : Diagnostics) : Diagnostics :=
  ⟨ds.entries.mergeSort fun a b => a.toNotice.notAfter b.toNotice⟩

def occurrences (ds : Diagnostics) (msg : Text) : Nat :=
  (ds.entries.filter fun d => d.msg == msg).length

def mostRepeats : Nat := 3

/-- The texts of diagnostics, of which those in `named` are named already.  Of a message that
occurs too often only the first is named, with the number of its occurrences. -/
def texts (ds : Diagnostics) (named : List Text) : List Diagnostic → List Text
  | [] => []
  | d :: rest =>
    let n := ds.occurrences d.msg
    if n ≤ mostRepeats then d.textWith d.msg :: ds.texts named rest
    else if named.contains d.msg then ds.texts named rest
    else d.textWith (d.msg ++ " [× " ++ toString n ++ "]") :: ds.texts (d.msg :: named) rest

/-- Reads a list: its text, which has a line or more for each diagnostic in the order of the
places, and the list as it is left, in that order.  Texts that are empty leave no line at the
start. -/
def read (ds : Diagnostics) : Text × Diagnostics :=
  if ds.isEmpty then ("no errors", ds)
  else
    let ordered := ds.sorted
    (Text.intercalate "\n" ((ordered.texts [] ordered.entries).dropWhile (· = "")), ordered)

def text (ds : Diagnostics) : Text :=
  ds.read.1

end Diagnostics

end LiteralHoist.Report
