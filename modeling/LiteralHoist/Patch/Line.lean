import LiteralHoist.Text.Basic

/-!
# Lines

A text is a list of lines, each with the line feed that ends it.  Only the last line may lack one,
and no line is empty, so a text is what its lines spell one after the other.
-/

set_option autoImplicit false

namespace LiteralHoist.Patch

def lineFeed : UInt8 := 10

/-- The lines of a sequence of octets, where `line` holds the octets of an open line in reverse. -/
def linesFrom (line : List UInt8) : List UInt8 → List Text
  | [] => if line.isEmpty then [] else [⟨line.reverse⟩]
  | b :: rest =>
    if b = lineFeed then ⟨(b :: line).reverse⟩ :: linesFrom [] rest
    else linesFrom (b :: line) rest

def lines (t : Text) : List Text :=
  linesFrom [] t.octets

def isEnded (line : Text) : Bool :=
  line.octets.getLast? == some lineFeed

def content (line : Text) : Text :=
  if isEnded line then ⟨line.octets.dropLast⟩ else line

def ending (line : Text) : Text :=
  if isEnded line then "\n" else ""

end LiteralHoist.Patch
