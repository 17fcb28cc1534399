/-!
# Cursors

A cursor is a place in a stream of characters: what is still to be read, and the line and column
where that starts.
-/

set_option autoImplicit false

namespace LiteralHoist.Yaml

def isBlank (c : Char) : Bool :=
  c = ' ' || c = '\t'

def isBreak (c : Char) : Bool :=
  c = '\n' || c = '\x0d' || c = '\u0085' || c = '\u2028' || c = '\u2029'

def atLineEnd : List Char → Bool
  | [] => true
  | c :: _ => isBreak c

def atWordEnd : List Char → Bool
  | [] => true
  | c :: _ => isBlank c || isBreak c

/-- The end of a line as a scalar keeps it: the two separators of Unicode stay themselves. -/
def keptBreak (c : Char) : Char :=
  if c = '\u2028' || c = '\u2029' then c else '\n'

structure Cursor where
  rest : List Char
  index : Nat := 0
  line : Nat := 0
  column : Nat := 0
  /-- Whether only blanks come between the last end of a line and this place. -/
  afterBreak : Bool := false
  deriving DecidableEq, Repr

namespace Cursor

def next? (c : Cursor) : Option Char :=
  c.rest.head?

def at' (c : Cursor) (ch : Char) : Bool :=
  c.next? == some ch

def advance (c : Cursor) (n : Nat) : Cursor where
  rest := c.rest.drop n
  index := c.index + n
  line := c.line
  column := c.column + n
  afterBreak := c.afterBreak && (c.rest.take n).all isBlank

def passBreak (c : Cursor) : Cursor :=
  match c.rest with
  | '\x0d' :: '\n' :: rest =>
    { rest, index := c.index + 2, line := c.line + 1, column := 0, afterBreak := true }
  | _ :: rest =>
    { rest, index := c.index + 1, line := c.line + 1, column := 0, afterBreak := true }
  | [] => c

def span (c : Cursor) (p : Char → Bool) : List Char × Cursor :=
  let taken := c.rest.takeWhile p
  (taken, c.advance taken.length)

def passBlanks (c : Cursor) : Cursor :=
  (c.span isBlank).2

def toLineEnd (c : Cursor) : Cursor :=
  (c.span fun ch => !isBreak ch).2

/-- Whether a marker of three equal characters starts a line here. -/
def atMarker (c : Cursor) (mark : Char) : Bool :=
  c.column == 0 &&
    match c.rest with
    | x :: y :: z :: rest => x = mark && y = mark && z = mark && atWordEnd rest
    | _ => false

def atDocumentMarker (c : Cursor) : Bool :=
  c.atMarker '-' || c.atMarker '.'

end Cursor

end LiteralHoist.Yaml
