import LiteralHoist.Text.Basic

/-!
# Source positions
-/

set_option autoImplicit false

namespace LiteralHoist.Source

/-- A line and column in the parsed file.  It is informational: a line that is not positive says
that the position is unknown, and column zero that only the line is known. -/
structure Position where
  line : Int := 0
  col : Int := 0
  deriving DecidableEq, Repr, Inhabited

def Position.isKnown (p : Position) : Bool :=
  0 < p.line

def Position.text (p : Position) : Text :=
  if !p.isKnown then "-"
  else if p.col = 0 then toString p.line
  else toString p.line ++ ":" ++ toString p.col

end LiteralHoist.Source
