import LiteralHoist.Text.Basic
import LiteralHoist.Text.Units

/-!
# Encodings

A stream of octets is UTF-8, or UTF-16 if it starts with the mark of one of its two orders.  Only
some control characters may stand in it.  A stream of UTF-8 is read in portions, so that what is
wrong in a portion is noticed only by those who read that far.
-/

set_option autoImplicit false

namespace LiteralHoist.Yaml

def isAllowed (c : Char) : Bool :=
  let n := c.toNat
  n = 9 || n = 10 || n = 13 || (0x20 ≤ n && n ≤ 0x7e) || n = 0x85 ||
    (0xa0 ≤ n && n ≤ 0xfffd) || 0x10000 ≤ n

def encodingMark : Char := '\uFEFF'

structure Stream where
  chars : List Char
  /-- Whether something else than the end comes after the characters. -/
  broken : Bool := false
  deriving DecidableEq, Repr

namespace Stream

def portionSize : Nat := 512

def widthFrom (b : UInt8) : Nat :=
  if b < 0xC0 then 1 else if b < 0xE0 then 2 else if b < 0xF0 then 3 else if b < 0xF8 then 4 else 1

/-- The number of octets at the end of a portion, given in reverse, that start a character and do
not complete it; `seen` octets were passed. -/
def cutOff (seen : Nat) : List UInt8 → Nat
  | [] => 0
  | b :: before =>
    if seen + 1 < widthFrom b then seen + 1
    else if Text.isTail b && seen < 2 then cutOff (seen + 1) before
    else 0

def portion? (octets : List UInt8) : Option (List Char) :=
  match Text.chars? ⟨octets⟩ with
  | none => none
  | some cs => if cs.all isAllowed then some cs else none

def ofPortions : Nat → List UInt8 → Stream
  | 0, _ => ⟨[], true⟩
  | _ + 1, [] => ⟨[], false⟩
  | steps + 1, bytes =>
    let octets := bytes.take portionSize
    let whole := octets.length - cutOff 0 octets.reverse
    match portion? (octets.take whole) with
    | none => ⟨[], true⟩
    | some cs =>
      if whole = 0 then ⟨[], true⟩
      else
        let rest := ofPortions steps (bytes.drop whole)
        ⟨cs ++ rest.chars, rest.broken⟩

/-- The code units of octets, of which the first of two is the greater part if `big`. -/
def unitsOf? (big : Bool) : List UInt8 → Option (List Nat)
  | [] => some []
  | [_] => none
  | a :: b :: rest =>
    let unit := if big then a.toNat * 256 + b.toNat else b.toNat * 256 + a.toNat
    (unitsOf? big rest).map (unit :: ·)

def ofPairs (big : Bool) (bytes : List UInt8) : Stream :=
  match (unitsOf? big bytes).bind Text.charsOfUnits? with
  | none => ⟨[], true⟩
  | some cs => if cs.all isAllowed then ⟨cs, false⟩ else ⟨[], true⟩

def ofOctets (bytes : List UInt8) : Stream :=
  match bytes with
  | 0xFF :: 0xFE :: rest => ofPairs false rest
  | 0xFE :: 0xFF :: rest => ofPairs true rest
  | _ =>
    let s := ofPortions (bytes.length + 1) bytes
    match s.chars with
    | c :: rest => if c = encodingMark then { s with chars := rest } else s
    | [] => s

end Stream

end LiteralHoist.Yaml
