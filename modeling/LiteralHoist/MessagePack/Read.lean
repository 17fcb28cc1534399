import LiteralHoist.MessagePack.Value
import LiteralHoist.Text.Basic

/-!
# Reading MessagePack

A value begins with an octet that says what it is and, for small values, holds it; lengths and
numbers that do not fit follow in big-endian order.
-/

set_option autoImplicit false

namespace LiteralHoist.MessagePack

inductive Malformed where
  | ended
  | unknownCode (code : UInt8)
  deriving DecidableEq, Repr

def Malformed.message : Malformed → Text
  | .ended => "EOF"
  | .unknownCode code => "msgpack: unknown code " ++ toString code.toNat

inductive Head where
  | nil
  | bool (b : Bool)
  | int (n : Int)
  | str (length : Nat)
  | list (length : Nat)
  | map (length : Nat)
  | other (length : Nat)
  deriving DecidableEq, Repr

def takeExactly : Nat → List UInt8 → Except Malformed (List UInt8 × List UInt8)
  | 0, bytes => .ok ([], bytes)
  | _ + 1, [] => .error .ended
  | n + 1, b :: bytes => do
    let (front, rest) ← takeExactly n bytes
    return (b :: front, rest)

def bigEndian (bytes : List UInt8) : Nat :=
  bytes.foldl (fun n b => n * 256 + b.toNat) 0

def takeNat (width : Nat) (bytes : List UInt8) : Except Malformed (Nat × List UInt8) := do
  let (front, rest) ← takeExactly width bytes
  return (bigEndian front, rest)

/-- The signed number of a word of `width` octets. -/
def signed (width n : Nat) : Int :=
  (n : Int).bmod (Nat.pow 256 width)

def wideHead (width : Nat) (make : Nat → Head) (bytes : List UInt8) :
    Except Malformed (Head × List UInt8) := do
  let (n, rest) ← takeNat width bytes
  return (make n, rest)

def head (code : UInt8) (bytes : List UInt8) : Except Malformed (Head × List UInt8) :=
  let n := code.toNat
  if n ≤ 0x7F then .ok (.int n, bytes)
  else if n ≤ 0x8F then .ok (.map (n - 0x80), bytes)
  else if n ≤ 0x9F then .ok (.list (n - 0x90), bytes)
  else if n ≤ 0xBF then .ok (.str (n - 0xA0), bytes)
  else if 0xE0 ≤ n then .ok (.int ((n : Int) - 256), bytes)
  else
    match n with
    | 0xC0 => .ok (.nil, bytes)
    | 0xC2 => .ok (.bool false, bytes)
    | 0xC3 => .ok (.bool true, bytes)
    | 0xC4 | 0xD9 => wideHead 1 .str bytes
    | 0xC5 | 0xDA => wideHead 2 .str bytes
    | 0xC6 | 0xDB => wideHead 4 .str bytes
    | 0xC7 => wideHead 1 (fun n => .other (n + 1)) bytes
    | 0xC8 => wideHead 2 (fun n => .other (n + 1)) bytes
    | 0xC9 => wideHead 4 (fun n => .other (n + 1)) bytes
    | 0xCA => .ok (.other 4, bytes)
    | 0xCB => .ok (.other 8, bytes)
    | 0xCC => wideHead 1 (fun n => .int n) bytes
    | 0xCD => wideHead 2 (fun n => .int n) bytes
    | 0xCE => wideHead 4 (fun n => .int n) bytes
    | 0xCF => wideHead 8 (fun n => .int n) bytes
    | 0xD0 => wideHead 1 (fun n => .int (signed 1 n)) bytes
    | 0xD1 => wideHead 2 (fun n => .int (signed 2 n)) bytes
    | 0xD2 => wideHead 4 (fun n => .int (signed 4 n)) bytes
    | 0xD3 => wideHead 8 (fun n => .int (signed 8 n)) bytes
    | 0xD4 => .ok (.other 2, bytes)
    | 0xD5 => .ok (.other 3, bytes)
    | 0xD6 => .ok (.other 5, bytes)
    | 0xD7 => .ok (.other 9, bytes)
    | 0xD8 => .ok (.other 17, bytes)
    | 0xDC => wideHead 2 .list bytes
    | 0xDD => wideHead 4 .list bytes
    | 0xDE => wideHead 2 .map bytes
    | 0xDF => wideHead 4 .map bytes
    | _ => .error (.unknownCode code)

mutual

/-- A value from the front, and the rest.  Every value takes an octet, which bounds the steps. -/
def value : Nat → List UInt8 → Except Malformed (MessagePack × List UInt8)
  | 0, _ => .error .ended
  | _ + 1, [] => .error .ended
  | steps + 1, code :: bytes => do
    let (found, bytes) ← head code bytes
    match found with
    | .nil => return (.nil, bytes)
    | .bool b => return (.bool b, bytes)
    | .int n => return (.int n, bytes)
    | .str length =>
      let (front, rest) ← takeExactly length bytes
      return (.str ⟨front⟩, rest)
    | .other length =>
      let (_, rest) ← takeExactly length bytes
      return (.other, rest)
    | .list length =>
      let (items, rest) ← values steps length bytes
      return (.list items, rest)
    | .map length =>
      let (entries, rest) ← entries steps length bytes
      return (.map entries, rest)

def values : Nat → Nat → List UInt8 → Except Malformed (List MessagePack × List UInt8)
  | _, 0, bytes => .ok ([], bytes)
  | 0, _ + 1, _ => .error .ended
  | steps + 1, n + 1, bytes => do
    let (v, bytes) ← value steps bytes
    let (vs, bytes) ← values steps n bytes
    return (v :: vs, bytes)

def entries :
    Nat → Nat → List UInt8 → Except Malformed (List (MessagePack × MessagePack) × List UInt8)
  | _, 0, bytes => .ok ([], bytes)
  | 0, _ + 1, _ => .error .ended
  | steps + 1, n + 1, bytes => do
    let (k, bytes) ← value steps bytes
    let (v, bytes) ← value steps bytes
    let (rest, bytes) ← entries steps n bytes
    return ((k, v) :: rest, bytes)

end

/-- The value at the front of octets; what follows it is ignored. -/
def read (bytes : List UInt8) : Except Malformed MessagePack := do
  let (v, _) ← value (2 * bytes.length + 2) bytes
  return v

end LiteralHoist.MessagePack
