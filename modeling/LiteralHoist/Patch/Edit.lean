import LiteralHoist.Patch.Line

/-!
# Edits

A sequence of edits turns one list of lines into another.  It is made from the two lists and flags
that say which of their lines are changed: the unchanged lines match one by one.
-/

set_option autoImplicit false

namespace LiteralHoist.Patch

inductive Edit where
  | keep (line : Text)
  | delete (line : Text)
  | insert (line : Text)
  deriving DecidableEq, Repr

namespace Edit

def isChange : Edit → Bool
  | .keep _ => false
  | .delete _ => true
  | .insert _ => true

def old? : Edit → Option Text
  | .keep line => some line
  | .delete line => some line
  | .insert _ => none

def new? : Edit → Option Text
  | .keep line => some line
  | .delete _ => none
  | .insert line => some line

end Edit

def oldLines (edits : List Edit) : List Text :=
  edits.filterMap Edit.old?

def newLines (edits : List Edit) : List Text :=
  edits.filterMap Edit.new?

/-- Edits from flagged lines; in a run of changes the deletions stand before the insertions. -/
def weave : List (Text × Bool) → List (Text × Bool) → List Edit
  | (line, true) :: old, new => .delete line :: weave old new
  | (line, false) :: old, [] => .delete line :: weave old []
  | [], (line, _) :: new => .insert line :: weave [] new
  | (kept, false) :: old, (line, true) :: new => .insert line :: weave ((kept, false) :: old) new
  | (kept, false) :: old, (_, false) :: new => .keep kept :: weave old new
  | [], [] => []
termination_by old new => old.length + new.length

def editsOf (old new : List Text) (changed : List Bool × List Bool) : List Edit :=
  weave (old.zip changed.1) (new.zip changed.2)

end LiteralHoist.Patch
