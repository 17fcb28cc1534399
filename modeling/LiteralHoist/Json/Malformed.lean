import LiteralHoist.Text.Quoted

/-!
# Malformed JSON

The first character at which a text stops being JSON, and what was being read there.  Containers may
nest to a limit only, so a bracket beyond it does not fit either.
-/

set_option autoImplicit false

namespace LiteralHoist.Json

/-- The greatest number of containers that may be open at once. -/
def maxDepth : Nat := 10000

inductive Reading where
  | value
  | objectKey
  | afterKey
  | afterMember
  | afterItem
  | afterEnd
  | inString
  | inEscape
  | inCodePoint
  | inNumber
  | inFraction
  | inExponent
  | inWord (word : Text) (expected : Char)
  | beyondDepth
  deriving DecidableEq, Repr

def Reading.text : Reading → Text
  | .value => "looking for beginning of value"
  | .objectKey => "looking for beginning of object key string"
  | .afterKey => "after object key"
  | .afterMember => "after object key:value pair"
  | .afterItem => "after array element"
  | .afterEnd => "after top-level value"
  | .inString => "in string literal"
  | .inEscape => "in string escape code"
  | .inCodePoint => "in \\u hexadecimal character escape"
  | .inNumber => "in numeric literal"
  | .inFraction => "after decimal point in numeric literal"
  | .inExponent => "in exponent of numeric literal"
  | .inWord word expected =>
    "in literal " ++ word ++ " (expecting " ++ Text.quotedSingle expected ++ ")"
  | .beyondDepth => "exceeded max depth"

/-- Why a text is not JSON; a character that does not fit is named by one octet. -/
inductive Malformed where
  | unexpectedEnd
  | unexpected (c : Char) (reading : Reading)
  deriving DecidableEq, Repr

def Malformed.message : Malformed → Text
  | .unexpectedEnd => "unexpected end of JSON input"
  | .unexpected c reading => "invalid character " ++ Text.quotedSingle c ++ " " ++ reading.text

end LiteralHoist.Json
