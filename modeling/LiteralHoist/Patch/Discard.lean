import LiteralHoist.Text.Basic

/-!
# Lines that are set aside

Before two texts are compared, lines that match nothing on the other side are set aside as
changed, since they cannot take part in a match.  A line that matches very many lines on the other
side is set aside too, but only provisionally: it stays set aside where it stands between lines
that match nothing, and in the middle of enough of them.
-/

set_option autoImplicit false

namespace LiteralHoist.Patch

inductive Standing where
  | kept
  | discarded
  | provisional
  deriving DecidableEq, Repr

/-- Doubles a number while a quarter of the size is left. -/
def scaled (start : Nat) (size : Nat) : Nat :=
  if h : size / 4 = 0 then start else scaled (2 * start) (size / 4)
termination_by size
decreasing_by omega

/-- The number of matches that is too many for a side of so many lines. -/
def tooMany (size : Nat) : Nat :=
  scaled 5 (size / 64)

def standings (lines others : List Text) : List Standing :=
  let many := tooMany lines.length
  lines.map fun line =>
    let matching := others.count line
    if matching = 0 then .discarded else if many < matching then .provisional else .kept

def Standing.settled : Standing → Standing
  | .provisional => .kept
  | s => s

/-- Keeps the provisional lines of every stretch of at least `least` of them, where `stretch`
counts those before. -/
def keepStretches (least : Nat) (stretch : Nat) : List Standing → List Standing
  | [] => List.replicate stretch (if least ≤ stretch then .kept else .provisional)
  | .provisional :: rest => keepStretches least (stretch + 1) rest
  | s :: rest =>
    List.replicate stretch (if least ≤ stretch then .kept else .provisional) ++
      s :: keepStretches least 0 rest

/-- Keeps the provisional lines at the start of a run, up to the third line in a row that matches
nothing, or the first such line after eight. -/
def keepStart (index row : Nat) : List Standing → List Standing
  | [] => []
  | s :: rest =>
    if 8 ≤ index ∧ s = .discarded then s :: rest
    else if s = .discarded then
      if row + 1 = 3 then s :: rest else s :: keepStart (index + 1) (row + 1) rest
    else s.settled :: keepStart (index + 1) 0 rest

def longStretch (size : Nat) : Nat :=
  scaled 1 (size / 4) + 1

def settleRun (run : List Standing) : List Standing :=
  if run.length < run.count .provisional * 4 then run.map Standing.settled
  else
    let run := keepStart 0 0 (keepStretches (longStretch run.length) 0 run)
    (keepStart 0 0 run.reverse).reverse

def settleOpenRun (run : List Standing) : List Standing :=
  let tail := run.reverse.takeWhile (· = .provisional)
  settleRun (run.take (run.length - tail.length)) ++ tail.map Standing.settled

def settle (run : List Standing) : List Standing → List Standing
  | [] => settleOpenRun run.reverse
  | .kept :: rest => settleOpenRun run.reverse ++ .kept :: settle [] rest
  | .discarded :: rest => settle (.discarded :: run) rest
  | .provisional :: rest =>
    if run.isEmpty then .kept :: settle [] rest else settle (.provisional :: run) rest

def takesPart (lines others : List Text) : List Bool :=
  (settle [] (standings lines others)).map (· = .kept)

end LiteralHoist.Patch
