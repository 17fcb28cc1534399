import LiteralHoist.Text.Basic

/-!
# Integers in text

An integer is written with an optional sign and in a base that its start tells: `0x`, `0b` and `0o`
stand for the bases sixteen, two and eight, another leading zero for base eight, and everything
else is decimal.  Underscores may separate digits.  Numbers are limited to machine words.
-/

set_option autoImplicit false

namespace LiteralHoist.Text

inductive IntegerError where
  | malformed
  | outOfRange
  deriving DecidableEq, Repr

def IntegerError.message : IntegerError → Text
  | .malformed => "invalid syntax"
  | .outOfRange => "value out of range"

/-- The value of a digit, in bases up to thirty-six. -/
def digitValue? (c : Char) : Option Nat :=
  if c.isDigit then some (c.toNat - '0'.toNat)
  else if c.isAlpha then some (c.toLower.toNat - 'a'.toNat + 10)
  else none

def wordBound : Nat := 0x10000000000000000

def signedBound : Nat := 0x8000000000000000

/-- Reads digits after a number; a number that becomes too great is noticed at once. -/
def readDigits (base : Nat) (separated : Bool) : Nat → List Char → Except IntegerError Nat
  | n, [] => .ok n
  | n, c :: rest =>
    if separated && c = '_' then readDigits base separated n rest
    else
      match digitValue? c with
      | none => .error .malformed
      | some d =>
        if base ≤ d then .error .malformed
        else if wordBound ≤ n * base + d then .error .outOfRange
        else readDigits base separated (n * base + d) rest

def baseOf (s : List Char) : Nat × List Char :=
  match s with
  | '0' :: mark :: d :: rest =>
    match mark.toLower with
    | 'b' => (2, d :: rest)
    | 'o' => (8, d :: rest)
    | 'x' => (16, d :: rest)
    | _ => (8, mark :: d :: rest)
  | '0' :: rest => (8, rest)
  | s => (10, s)

/-- Whether underscores stand between digits only, where `afterDigit` and `afterSeparator` tell
what stands before. -/
def separatesDigits (hex : Bool) (afterDigit afterSeparator : Bool) : List Char → Bool
  | [] => !afterSeparator
  | c :: rest =>
    if c.isDigit || (hex && 'a' ≤ c.toLower && c.toLower ≤ 'f') then
      separatesDigits hex true false rest
    else if c = '_' then afterDigit && separatesDigits hex false true rest
    else !afterSeparator && separatesDigits hex false false rest

def wellSeparated (s : List Char) : Bool :=
  match s with
  | '0' :: mark :: rest =>
    if mark.toLower = 'b' || mark.toLower = 'o' || mark.toLower = 'x' then
      separatesDigits (mark.toLower = 'x') true false rest
    else separatesDigits false false false s
  | s => separatesDigits false false false s

def readUnsigned (s : List Char) : Except IntegerError Nat := do
  if s.isEmpty then .error .malformed
  else
    let (base, digits) := baseOf s
    let n ← readDigits base true 0 digits
    if s.contains '_' && !wellSeparated s then .error .malformed else return n

def readUnsignedIn (base : Nat) (s : List Char) : Except IntegerError Nat :=
  if s.isEmpty then .error .malformed else readDigits base false 0 s

def signed (negative : Bool) (n : Nat) : Except IntegerError Int :=
  if negative then
    if signedBound < n then .error .outOfRange else .ok (-n)
  else if signedBound ≤ n then .error .outOfRange
  else .ok n

def readSigned (read : List Char → Except IntegerError Nat) (s : List Char) :
    Except IntegerError Int := do
  match s with
  | '+' :: rest => signed false (← read rest)
  | '-' :: rest => signed true (← read rest)
  | s => signed false (← read s)

def integer (s : List Char) : Except IntegerError Int :=
  readSigned readUnsigned s

def integerIn (base : Nat) (s : List Char) : Except IntegerError Int :=
  readSigned (readUnsignedIn base) s

def truth? (s : Text) : Option Bool :=
  if (["1", "t", "T", "true", "TRUE", "True"] : List Text).contains s then some true
  else if (["0", "f", "F", "false", "FALSE", "False"] : List Text).contains s then some false
  else none

end LiteralHoist.Text
