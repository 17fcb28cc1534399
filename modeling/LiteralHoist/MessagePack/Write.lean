import LiteralHoist.MessagePack.Value
import LiteralHoist.Text.Basic

/-!
# Writing MessagePack

Every number and every length takes the shortest form that holds it.
-/

set_option autoImplicit false

namespace LiteralHoist.MessagePack

/-- The last `width` octets of a number, in big-endian order. -/
def bytesOf : Nat → Nat → List UInt8
  | 0, _ => []
  | width + 1, n => bytesOf width (n / 256) ++ [UInt8.ofNat n]

def naturalBytes (n : Nat) : List UInt8 :=
  if n < 0x80 then [UInt8.ofNat n]
  else if n < 0x100 then 0xCC :: bytesOf 1 n
  else if n < 0x10000 then 0xCD :: bytesOf 2 n
  else if n < 0x100000000 then 0xCE :: bytesOf 4 n
  else 0xCF :: bytesOf 8 n

/-- The octets of a negative number; the word of `width` octets is its complement. -/
def negativeBytes (n : Int) : List UInt8 :=
  let word (width : Nat) : List UInt8 := bytesOf width (n + (Nat.pow 256 width : Nat)).toNat
  if -32 ≤ n then word 1
  else if -0x80 ≤ n then 0xD0 :: word 1
  else if -0x8000 ≤ n then 0xD1 :: word 2
  else if -0x80000000 ≤ n then 0xD2 :: word 4
  else 0xD3 :: word 8

def intBytes (n : Int) : List UInt8 :=
  if 0 ≤ n then naturalBytes n.toNat else negativeBytes n

def strHead (length : Nat) : List UInt8 :=
  if length < 32 then [UInt8.ofNat (0xA0 + length)]
  else if length < 0x100 then 0xD9 :: bytesOf 1 length
  else if length < 0x10000 then 0xDA :: bytesOf 2 length
  else 0xDB :: bytesOf 4 length

def listHead (length : Nat) : List UInt8 :=
  if length < 16 then [UInt8.ofNat (0x90 + length)]
  else if length < 0x10000 then 0xDC :: bytesOf 2 length
  else 0xDD :: bytesOf 4 length

def mapHead (length : Nat) : List UInt8 :=
  if length < 16 then [UInt8.ofNat (0x80 + length)]
  else if length < 0x10000 then 0xDE :: bytesOf 2 length
  else 0xDF :: bytesOf 4 length

def strBytes (s : Text) : List UInt8 :=
  strHead s.size ++ s.octets

mutual

def write : MessagePack → List UInt8 → List UInt8
  | .nil, rest => 0xC0 :: rest
  | .bool false, rest => 0xC2 :: rest
  | .bool true, rest => 0xC3 :: rest
  | .int n, rest => intBytes n ++ rest
  | .str s, rest => strBytes s ++ rest
  | .list items, rest => listHead items.length ++ writeItems items rest
  | .map pairs, rest => mapHead pairs.length ++ writePairs pairs rest
  | .other, rest => 0xC0 :: rest

def writeItems : List MessagePack → List UInt8 → List UInt8
  | [], rest => rest
  | item :: items, rest => write item (writeItems items rest)

def writePair : MessagePack × MessagePack → List UInt8 → List UInt8
  | (k, v), rest => write k (write v rest)

def writePairs : List (MessagePack × MessagePack) → List UInt8 → List UInt8
  | [], rest => rest
  | pair :: pairs, rest => writePair pair (writePairs pairs rest)

end

def bytes (v : MessagePack) : List UInt8 :=
  write v []

end LiteralHoist.MessagePack
