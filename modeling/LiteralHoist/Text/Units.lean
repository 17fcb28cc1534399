/-!
# Code units

A character beyond the sixteen-bit ones is written as a pair of code units, its two halves.
-/

set_option autoImplicit false

namespace LiteralHoist.Text

def isHighHalf (n : Nat) : Bool :=
  0xD800 ≤ n && n < 0xDC00

def isLowHalf (n : Nat) : Bool :=
  0xDC00 ≤ n && n < 0xE000

def pairedChar (high low : Nat) : Char :=
  Char.ofNat (0x10000 + (high - 0xD800) * 0x400 + (low - 0xDC00))

/-- The characters of code units, if every half has its other half. -/
def charsOfUnits? : List Nat → Option (List Char)
  | [] => some []
  | [n] => if isHighHalf n || isLowHalf n then none else some [Char.ofNat n]
  | n :: m :: rest =>
    if isHighHalf n then
      if isLowHalf m then (charsOfUnits? rest).map (pairedChar n m :: ·) else none
    else if isLowHalf n then none
    else (charsOfUnits? (m :: rest)).map (Char.ofNat n :: ·)

end LiteralHoist.Text
