import LiteralHoist.Text.Basic

/-!
# Shifting runs of changes

A run of changed lines can be moved by a line where the line that it gains equals the line that it
loses.  Runs are moved back as far as they go, which joins them with earlier runs, then forward as
far as they go, which joins them with later ones, and at last back to the nearest place that lines
up with a run of changes on the other side.
-/

set_option autoImplicit false

namespace LiteralHoist.Patch

def flagged (flags : Array Bool) (k : Nat) : Bool :=
  flags.getD k false

def runStart (flags : Array Bool) : Nat → Nat
  | 0 => 0
  | k + 1 => if flagged flags k then runStart flags k else k + 1

def lastUnchanged (flags : Array Bool) : Nat → Nat
  | 0 => 0
  | k + 1 => if flagged flags k then lastUnchanged flags k else k

def runEnd (flags : Array Bool) (k : Nat) : Nat :=
  if h : k < flags.size then if flags[k] then runEnd flags (k + 1) else k else k
termination_by flags.size - k

/-- A run of changed lines, with the line of the other side that corresponds to its end. -/
structure Run where
  flags : Array Bool
  first : Nat
  last : Nat
  mate : Nat

def Run.back (other : Array Bool) (r : Run) : Run where
  flags := (r.flags.setIfInBounds (r.first - 1) true).setIfInBounds (r.last - 1) false
  first := r.first - 1
  last := r.last - 1
  mate := lastUnchanged other r.mate

def Run.backWhile (lines : Array Text) (other : Array Bool) : Nat → Run → Run
  | 0, r => r
  | steps + 1, r =>
    if 0 < r.first && lines[r.first - 1]? == lines[r.last - 1]? then
      let moved := r.back other
      Run.backWhile lines other steps
        { moved with first := runStart moved.flags moved.first }
    else r

/-- Moves a run forward as far as it goes, and keeps track of the last end that lines up with a run
on the other side. -/
def Run.forwardWhile (lines : Array Text) (other : Array Bool) :
    Nat → Run → Nat → Run × Nat
  | 0, r, aligned => (r, aligned)
  | steps + 1, r, aligned =>
    if r.last < lines.size && lines[r.first]? == lines[r.last]? then
      let flags := (r.flags.setIfInBounds r.first false).setIfInBounds r.last true
      let last := runEnd flags (r.last + 1)
      let mate := runEnd other (r.mate + 1)
      let aligned := if flagged other (r.mate + 1) then last else aligned
      Run.forwardWhile lines other steps ⟨flags, r.first + 1, last, mate⟩ aligned
    else (r, aligned)

/-- Moves a run back and forward until it joins no further run. -/
def Run.join (lines : Array Text) (other : Array Bool) : Nat → Run → Run × Nat
  | 0, r => (r, lines.size)
  | steps + 1, r =>
    let back := r.backWhile lines other lines.size
    let aligned :=
      if 0 < back.mate && flagged other (back.mate - 1) then back.last else lines.size
    let (moved, aligned) := back.forwardWhile lines other lines.size aligned
    if moved.last - moved.first = r.last - r.first then (moved, aligned)
    else moved.join lines other steps

def Run.backTo (other : Array Bool) (aligned : Nat) : Nat → Run → Run
  | 0, r => r
  | steps + 1, r => if aligned < r.last then (r.back other).backTo other aligned steps else r

def shiftFrom (lines : Array Text) (other : Array Bool) :
    Nat → Array Bool → Nat → Nat → Array Bool
  | 0, flags, _, _ => flags
  | steps + 1, flags, k, mate =>
    if lines.size ≤ k then flags
    else if !flagged flags k then
      shiftFrom lines other steps flags (k + 1) (runEnd other mate + 1)
    else
      let run : Run := ⟨flags, k, runEnd flags k, runEnd other mate⟩
      let (joined, aligned) := run.join lines other (lines.size + 1)
      let placed := joined.backTo other aligned lines.size
      shiftFrom lines other steps placed.flags placed.last placed.mate

def shift (lines : List Text) (flags other : List Bool) : List Bool :=
  (shiftFrom lines.toArray other.toArray ((lines.length + 1) * (lines.length + 1))
    flags.toArray 0 0).toList

end LiteralHoist.Patch
