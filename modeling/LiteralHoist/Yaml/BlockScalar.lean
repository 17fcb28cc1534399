import LiteralHoist.Yaml.Cursor

/-!
# Scalars in blocks

A scalar after `|` or `>` consists of the lines that are indented below it.  The lines are kept as
they are, or, after `>`, those that start with a word are joined.  What becomes of the ends of
lines after the last word is up to a sign.
-/

set_option autoImplicit false

namespace LiteralHoist.Yaml

inductive Chomping where
  | clip
  | strip
  | keep
  deriving DecidableEq, Repr

structure BlockHeader where
  chomping : Chomping := .clip
  increment : Option Nat := none
  deriving DecidableEq, Repr

namespace BlockHeader

def chomping? : List Char → Option Chomping
  | '+' :: _ => some .keep
  | '-' :: _ => some .strip
  | _ => none

def readChomping (h : BlockHeader) (c : Cursor) : BlockHeader × Cursor :=
  match chomping? c.rest with
  | some chomping => ({ h with chomping }, c.advance 1)
  | none => (h, c)

def readIncrement (h : BlockHeader) (c : Cursor) : Option (BlockHeader × Cursor) :=
  match c.next? with
  | some d =>
    if d = '0' then none
    else if d.isDigit then
      some ({ h with increment := some (d.toNat - '0'.toNat) }, c.advance 1)
    else some (h, c)
  | none => some (h, c)

def readSigns (c : Cursor) : Option (BlockHeader × Cursor) :=
  if (chomping? c.rest).isSome then
    let (h, c) := readChomping {} c
    h.readIncrement c
  else
    (readIncrement {} c).map fun (h, c) => if h.increment.isSome then h.readChomping c else (h, c)

def read (c : Cursor) : Option (BlockHeader × Cursor) := do
  let (h, c) ← readSigns c
  let c := c.passBlanks
  let c := if c.at' '#' then c.toLineEnd else c
  if atLineEnd c.rest then some (h, c.passBreak) else none

end BlockHeader

/-- Passes the ends of lines before the next line that is not empty, and the indentation of lines
up to `indent`, or all of it; gives the ends of lines and the greatest column that was reached.  A
tab in the indentation is refused. -/
def passEmptyLines (indent : Option Nat) :
    Nat → List Char → Nat → Cursor → Option (List Char × Nat × Cursor)
  | 0, breaks, widest, c => some (breaks, widest, c)
  | steps + 1, breaks, widest, c =>
    let spaces := (c.rest.takeWhile (· = ' ')).length
    let c :=
      match indent with
      | none => c.advance spaces
      | some n => c.advance (min spaces (n - c.column))
    let widest := max widest c.column
    let indented :=
      match indent with
      | none => false
      | some n => n ≤ c.column
    match c.next? with
    | none => some (breaks, widest, c)
    | some ch =>
      if ch = '\t' && !indented then none
      else if isBreak ch then
        passEmptyLines indent steps (breaks ++ [keptBreak ch]) widest c.passBreak
      else some (breaks, widest, c)

/-- What stands between two lines of a block: `first` is the end of the earlier line and `more` the
ends of the empty lines after it. -/
def betweenLines (folded : Bool) (first more : List Char) : List Char :=
  if folded && first.head? == some '\n' then if more.isEmpty then [' '] else more
  else first ++ more

/-- The lines of a block after the text `before`: its text, the ends of lines that came last, and
the place after them.  `wasBlank` tells whether the last line started with a blank. -/
def blockLines (folded : Bool) (indent : Nat) :
    Nat → List Char → Bool → List Char → List Char → Cursor →
      Option (List Char × List Char × List Char × Cursor)
  | 0, before, _, first, more, c => some (before, first, more, c)
  | steps + 1, before, wasBlank, first, more, c =>
    match c.next? with
    | none => some (before, first, more, c)
    | some ch =>
      if c.column ≠ indent then some (before, first, more, c)
      else
        let starts := isBlank ch
        let text := before ++ betweenLines (folded && !wasBlank && !starts) first more
        let (line, c) := c.span fun ch => !isBreak ch
        let first := (c.next?.map keptBreak).toList
        match passEmptyLines (some indent) (c.rest.length + 1) [] 0 c.passBreak with
        | none => none
        | some (more, _, c) => blockLines folded indent steps (text ++ line) starts first more c

def blockScalar? (folded : Bool) (indent : Int) (c : Cursor) :
    Option (List Char × Cursor) := do
  let (h, c) ← BlockHeader.read (c.advance 1)
  let steps := c.rest.length + 1
  let given := h.increment.map fun n => (max indent 0).toNat + n
  let (breaks, widest, c) ← passEmptyLines given steps [] 0 c
  let width := given.getD (max (max widest (indent + 1).toNat) 1)
  let (text, first, more, c) ← blockLines folded width steps [] false [] breaks c
  match h.chomping with
  | .strip => some (text, c)
  | .clip => some (text ++ first, c)
  | .keep => some (text ++ first ++ more, c)

end LiteralHoist.Yaml
