import LiteralHoist.Patch.Align

/-!
# Hunks

A patch shows the changes and the unchanged lines next to them.  A hunk is a run of shown lines,
with the numbers of lines that stand before it in the two texts.
-/

set_option autoImplicit false

namespace LiteralHoist.Patch

structure Hunk where
  oldStart : Nat
  newStart : Nat
  edits : List Edit
  deriving DecidableEq, Repr

/-- Whether each edit is shown: a change, or an unchanged line within the context of one.  Of the
edits before, `behind` lines of context are still to be shown. -/
def shown (behind : Nat) : List Edit → List (Edit × Bool)
  | [] => []
  | e :: rest =>
    if e.isChange then (e, true) :: shown contextSize rest
    else
      (e, 0 < behind || (rest.take contextSize).any Edit.isChange) :: shown (behind - 1) rest

/-- The runs of shown edits, where a run may have started and numbers of lines stand before. -/
def runs (started : Option Hunk) (oldAt newAt : Nat) : List (Edit × Bool) → List Hunk
  | [] => started.toList
  | (e, visible) :: rest =>
    let oldNext := oldAt + e.old?.toList.length
    let newNext := newAt + e.new?.toList.length
    if visible then
      let h := started.getD ⟨oldAt, newAt, []⟩
      runs (some { h with edits := h.edits ++ [e] }) oldNext newNext rest
    else started.toList ++ runs none oldNext newNext rest

def hunks (edits : List Edit) : List Hunk :=
  runs none 0 0 (shown 0 edits)

/-- A range of lines: the first and the number of lines, which is left out if it is one; an empty
range has the line before it. -/
def rangeText (start count : Nat) : Text :=
  if count = 0 then toString start ++ ",0"
  else if count = 1 then toString (start + 1)
  else toString (start + 1) ++ "," ++ toString count

def markedLine (mark : Text) (line : Text) : Text :=
  if isEnded line then mark ++ line
  else mark ++ line ++ "\n\\ No newline at end of file\n"

def Edit.text : Edit → Text
  | .keep line => markedLine " " line
  | .delete line => markedLine "-" line
  | .insert line => markedLine "+" line

def Hunk.text (h : Hunk) : Text :=
  "@@ -" ++ rangeText h.oldStart (oldLines h.edits).length ++
    " +" ++ rangeText h.newStart (newLines h.edits).length ++ " @@\n" ++
    Text.join (h.edits.map Edit.text)

def comparison (oldLabel newLabel old new : Text) : Text :=
  "--- " ++ oldLabel ++ "\n+++ " ++ newLabel ++ "\n" ++
    Text.join ((hunks (edits (lines old) (lines new))).map Hunk.text)

def header (oldName newName : Text) : Text :=
  "diff " ++ oldName ++ " " ++ newName ++ "\n--- " ++ oldName ++ "\n+++ " ++ newName ++ "\n"

def afterLine? (t : Text) : Option Text :=
  match t.octets.dropWhile (· ≠ lineFeed) with
  | [] => none
  | _ :: rest => some ⟨rest⟩

/-- A comparison with another header; it is left as it is if no hunk follows its first two lines. -/
def relabelled (oldName newName given : Text) : Text :=
  match (afterLine? given).bind afterLine? with
  | none => given
  | some body => if body.startsWith "@" then header oldName newName ++ body else given

def patchBy? (compareTexts : Text → Text → Text) (oldName old newName new : Text) :
    Option Text :=
  if old = new then none else some (relabelled oldName newName (compareTexts old new))

def unified? : Text → Text → Text → Text → Option Text :=
  patchBy? (comparison "old" "new")

end LiteralHoist.Patch
