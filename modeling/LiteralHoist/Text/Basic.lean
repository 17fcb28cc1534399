/-!
# Texts

A text is a sequence of octets.  Texts are written in UTF-8, but a document may bring octets that
are no UTF-8 as a text, and those are kept as they are: two texts are the same only if they have
the same octets, and texts are ordered by them.

Seen as letters, a text consists of characters and of stray octets, which belong to no well-formed
character.  Where a character is needed, a stray octet counts as the replacement character.
-/

set_option autoImplicit false

namespace LiteralHoist

/-- A sequence of octets that is read as UTF-8. -/
structure Text where
  octets : List UInt8
  deriving DecidableEq, Repr, Inhabited

namespace Text

def ofChars (cs : List Char) : Text :=
  ⟨cs.flatMap String.utf8EncodeChar⟩

def ofString (s : String) : Text :=
  ofChars s.toList

instance : Coe String Text :=
  ⟨ofString⟩

def append (a b : Text) : Text :=
  ⟨a.octets ++ b.octets⟩

instance : Append Text :=
  ⟨append⟩

instance : LT Text :=
  ⟨fun a b => a.octets < b.octets⟩

instance (a b : Text) : Decidable (a < b) :=
  inferInstanceAs (Decidable (a.octets < b.octets))

def isEmpty (t : Text) : Bool :=
  t.octets.isEmpty

def size (t : Text) : Nat :=
  t.octets.length

def join (ts : List Text) : Text :=
  ⟨ts.flatMap octets⟩

def intercalate (separator : Text) (ts : List Text) : Text :=
  ⟨separator.octets.intercalate (ts.map octets)⟩

def startsWith (t start : Text) : Bool :=
  start.octets.isPrefixOf t.octets

/-- A part of a text: a character, or an octet that belongs to none. -/
inductive Letter where
  | char (c : Char)
  | stray (octet : UInt8)
  deriving DecidableEq, Repr

def replacement : Char := '\uFFFD'

def Letter.toChar : Letter → Char
  | .char c => c
  | .stray _ => replacement

def isTail (b : UInt8) : Bool :=
  0x80 ≤ b && b ≤ 0xBF

def tailBits (b : UInt8) : Nat :=
  b.toNat % 64

/-- The second octets that may follow a first octet of a three-octet character: no longer form of
a shorter character, and no surrogate. -/
def opensThree (first second : UInt8) : Bool :=
  isTail second && (first != 0xE0 || 0xA0 ≤ second) && (first != 0xED || second ≤ 0x9F)

/-- The second octets that may follow a first octet of a four-octet character: no longer form of
a shorter character, and nothing beyond the last code point. -/
def opensFour (first second : UInt8) : Bool :=
  isTail second && (first != 0xF0 || 0x90 ≤ second) && (first != 0xF4 || second ≤ 0x8F)

def lettersOf : List UInt8 → List Letter
  | [] => []
  | a :: rest =>
    if a < 0x80 then .char (Char.ofNat a.toNat) :: lettersOf rest
    else
      match rest with
      | [] => [.stray a]
      | b :: rest₁ =>
        if 0xC2 ≤ a && a ≤ 0xDF && isTail b then
          .char (Char.ofNat (a.toNat % 32 * 64 + tailBits b)) :: lettersOf rest₁
        else
          match rest₁ with
          | [] => .stray a :: lettersOf [b]
          | c :: rest₂ =>
            if 0xE0 ≤ a && a ≤ 0xEF && opensThree a b && isTail c then
              .char (Char.ofNat (a.toNat % 16 * 4096 + tailBits b * 64 + tailBits c)) ::
                lettersOf rest₂
            else
              match rest₂ with
              | [] => .stray a :: lettersOf (b :: [c])
              | d :: rest₃ =>
                if 0xF0 ≤ a && a ≤ 0xF4 && opensFour a b && isTail c && isTail d then
                  .char (Char.ofNat (a.toNat % 8 * 262144 + tailBits b * 4096 + tailBits c * 64 +
                    tailBits d)) :: lettersOf rest₃
                else .stray a :: lettersOf (b :: c :: d :: rest₃)

def letters (t : Text) : List Letter :=
  lettersOf t.octets

def chars (t : Text) : List Char :=
  t.letters.map Letter.toChar

def repaired (t : Text) : Text :=
  ofChars t.chars

def toString (t : Text) : String :=
  String.ofList t.chars

instance : ToString Text :=
  ⟨toString⟩

def chars? (t : Text) : Option (List Char) :=
  t.letters.mapM fun
    | .char c => some c
    | .stray _ => none

def ofNat (n : Nat) : Text :=
  ofString (Nat.repr n)

def ofInt : Int → Text
  | .ofNat n => ofNat n
  | .negSucc n => "-" ++ ofNat (n + 1)

end Text

end LiteralHoist
