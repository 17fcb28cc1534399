import LiteralHoist.Text.Basic
import LiteralHoist.Text.Printable

/-!
# Quoted text in diagnostics

A word quoted in a diagnostic is written so that every character can be seen: quotes and
backslashes are escaped, the usual control characters have short names, and the other characters
that cannot be printed are written by their code point in hexadecimal.  A stray octet is written by
its value.
-/

set_option autoImplicit false

namespace LiteralHoist.Text

def hexDigits : Nat → Nat → List Char
  | 0, _ => []
  | width + 1, n => hexDigits width (n / 16) ++ [Nat.digitChar (n % 16)]

def codePointEscape (n : Nat) : List Char :=
  if n < 0x80 then '\\' :: 'x' :: hexDigits 2 n
  else if n < 0x10000 then '\\' :: 'u' :: hexDigits 4 n
  else '\\' :: 'U' :: hexDigits 8 n

/-- One character inside quotes, where the quote mark itself has to be escaped. -/
def quotedChar (mark : Char) (c : Char) : List Char :=
  if c = mark ∨ c = '\\' then ['\\', c]
  else if isPrintable c then [c]
  else
    match c.toNat with
    | 7 => ['\\', 'a']
    | 8 => ['\\', 'b']
    | 9 => ['\\', 't']
    | 10 => ['\\', 'n']
    | 11 => ['\\', 'v']
    | 12 => ['\\', 'f']
    | 13 => ['\\', 'r']
    | n => codePointEscape n

def quotedLetter (mark : Char) : Letter → List Char
  | .char c => quotedChar mark c
  | .stray b => '\\' :: 'x' :: hexDigits 2 b.toNat

def quoted (t : Text) : Text :=
  ofChars ('\x22' :: (t.letters.flatMap (quotedLetter '\x22') ++ ['\x22']))

def quotedSingle (c : Char) : Text :=
  ofChars ('\x27' :: (quotedChar '\x27' c ++ ['\x27']))

end LiteralHoist.Text
