/-!
# Decimal fractions in text

A decimal fraction is held as a floating-point number with fifty-three significant bits, the
nearest to it, where of two equally near ones the even one is taken.  Only the whole part of that
number is used.
-/

set_option autoImplicit false

namespace LiteralHoist.Text

/-- A quotient rounded to the nearest number, and to the even one of two equally near. -/
def roundDiv (num den : Nat) : Nat :=
  let q := num / den
  let r := num % den
  if 2 * r < den then q
  else if den < 2 * r then q + 1
  else q + q % 2

def scaledBy (num den : Nat) (s : Int) : Nat × Nat :=
  if 0 ≤ s then (num * Nat.pow 2 s.toNat, den) else (num, den * Nat.pow 2 (-s).toNat)

def significantBits : Nat := 53

/-- The power of two that scales a positive quotient to a whole part of the significant bits. -/
def scaleOf (num den : Nat) : Int :=
  let s : Int := significantBits - 1 - (Nat.log2 num - Nat.log2 den)
  let (a, b) := scaledBy num den s
  if a < b * Nat.pow 2 (significantBits - 1) then s + 1 else s

def nearestWhole (num den : Nat) : Nat :=
  let s := scaleOf num den
  let (a, b) := scaledBy num den s
  let m := roundDiv a b
  if 0 ≤ s then m / Nat.pow 2 s.toNat else m * Nat.pow 2 (-s).toNat

def floatBound : Nat := Nat.pow 2 1024

/-- The whole part of the floating-point number nearest to `digits` times a power of ten, unless
it is too great for one. -/
def wholeOfScientific (digits : List Char) (exponent : Int) : Option Nat :=
  let digits := digits.dropWhile (· = '0')
  let n := digits.foldl (fun n c => n * 10 + (c.toNat - '0'.toNat)) 0
  let size : Int := digits.length + exponent
  if n = 0 then some 0
  else if 400 < size then none
  else if size < -400 then some 0
  else
    let whole :=
      if 0 ≤ exponent then nearestWhole (n * Nat.pow 10 exponent.toNat) 1
      else nearestWhole n (Nat.pow 10 (-exponent).toNat)
    if floatBound ≤ whole then none else some whole

def spanDigits (s : List Char) : List Char × List Char :=
  (s.takeWhile Char.isDigit, s.dropWhile Char.isDigit)

def digitsValue (digits : List Char) : Nat :=
  digits.foldl (fun n c => n * 10 + (c.toNat - '0'.toNat)) 0

def exponent? (s : List Char) : Option Int :=
  let unsigned (rest : List Char) : Option Nat :=
    if rest.isEmpty || !rest.all Char.isDigit then none else some (digitsValue rest)
  match s with
  | [] => some 0
  | mark :: rest =>
    if mark = 'e' || mark = 'E' then
      match rest with
      | '+' :: rest => (unsigned rest).map fun n => (n : Int)
      | '-' :: rest => (unsigned rest).map fun n => -(n : Int)
      | rest => (unsigned rest).map fun n => (n : Int)
    else none

/-- The whole part of an unsigned decimal fraction: digits, a point that may be missing, digits and
an exponent that may be missing, with at least one digit. -/
def unsignedWhole? (s : List Char) : Option Nat :=
  let (before, rest) := spanDigits s
  let (after, rest) :=
    match rest with
    | '.' :: rest => spanDigits rest
    | rest => ([], rest)
  if before.isEmpty && after.isEmpty then none
  else do
    let exponent ← exponent? rest
    wholeOfScientific (before ++ after) (exponent - after.length)

def decimalWhole? (s : List Char) : Option Int :=
  match s with
  | '+' :: rest => (unsignedWhole? rest).map fun n => (n : Int)
  | '-' :: rest => (unsignedWhole? rest).map fun n => -(n : Int)
  | rest => (unsignedWhole? rest).map fun n => (n : Int)

end LiteralHoist.Text
