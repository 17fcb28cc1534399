import LiteralHoist.Patch.Line

/-!
# Coloured patches

The lines of a patch are coloured by what they start with.  The colour is switched on before a
line and off again before the line feed that ends it.
-/

set_option autoImplicit false

namespace LiteralHoist.Patch

inductive Style where
  | bold
  | cyan
  | red
  | green
  deriving DecidableEq, Repr

def Style.on : Style → Nat
  | .bold => 1
  | .cyan => 36
  | .red => 31
  | .green => 32

def Style.off : Style → Nat
  | .bold => 22
  | _ => 0

def control (n : Nat) : Text :=
  "\x1b[" ++ Text.ofNat n ++ "m"

def Style.paint (style : Style) (text : Text) : Text :=
  control style.on ++ text ++ control style.off

def headerStarts : List Text :=
  ["diff ", "--- ", "+++ "]

/-- The style of a line; most lines have none. -/
def styleOf? (line : Text) : Option Style :=
  if headerStarts.any fun start => line.startsWith start then some .bold
  else if line.startsWith "@" then some .cyan
  else if line.startsWith "-" then some .red
  else if line.startsWith "+" then some .green
  else none

def colourLine (paint : Style → Text → Text) (line : Text) : Text :=
  match styleOf? line with
  | none => line
  | some style => paint style (content line) ++ ending line

def colouredBy (paint : Style → Text → Text) (text : Text) : Text :=
  Text.join ((lines text).map (colourLine paint))

def coloured : Text → Text :=
  colouredBy Style.paint

end LiteralHoist.Patch
