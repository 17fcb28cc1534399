import LiteralHoist.Json.Malformed
import LiteralHoist.Text.Units

/-!
# JSON tokens

A text is cut into tokens by a machine that looks at one octet at a time, which it takes for the
character of that number; only inside a string do octets spell other characters.  A text that cannot
be cut ends in a token that says why; whether that is the first fault of the text is for the
parser to decide, which may refuse the beginning of that token already.
-/

set_option autoImplicit false

namespace LiteralHoist.Json

inductive Token where
  | openObject
  | closeObject
  | openArray
  | closeArray
  | colon
  | comma
  | str (s : Text)
  | num (text : Text)
  | true
  | false
  | null
  | stray (c : Char)
  /-- A token that began with a character and went wrong. -/
  | broken (first : Char) (cause : Malformed)
  deriving DecidableEq, Repr

def Token.first : Token → Char
  | .openObject => '\x7b'
  | .closeObject => '\x7d'
  | .openArray => '['
  | .closeArray => ']'
  | .colon => ':'
  | .comma => ','
  | .str _ => '\x22'
  | .num text => text.chars.headD '0'
  | .true => 't'
  | .false => 'f'
  | .null => 'n'
  | .stray c => c
  | .broken c _ => c

/-- A piece of a string: an octet, a character that was written as an escape, or a code unit that
was. -/
inductive Piece where
  | octet (b : UInt8)
  | char (c : Char)
  | unit (n : Nat)
  deriving DecidableEq, Repr

/-- The character of a code unit on its own; half a pair has none and is replaced. -/
def unitChar (n : Nat) : Char :=
  if Text.isHighHalf n || Text.isLowHalf n then Text.replacement else Char.ofNat n

/-- The octets of a string: neighbouring halves of a pair are put together. -/
def joinPieces : List Piece → List UInt8
  | [] => []
  | .octet b :: rest => b :: joinPieces rest
  | .char c :: rest => String.utf8EncodeChar c ++ joinPieces rest
  | .unit high :: .unit low :: rest =>
    if Text.isHighHalf high && Text.isLowHalf low then
      String.utf8EncodeChar (Text.pairedChar high low) ++ joinPieces rest
    else String.utf8EncodeChar (unitChar high) ++ joinPieces (.unit low :: rest)
  | .unit n :: rest => String.utf8EncodeChar (unitChar n) ++ joinPieces rest

def piecesText (pieces : List Piece) : Text :=
  Text.repaired ⟨joinPieces pieces⟩

def hexValue? (c : Char) : Option Nat :=
  if '0' ≤ c && c ≤ '9' then some (c.toNat - '0'.toNat)
  else if 'a' ≤ c && c ≤ 'f' then some (c.toNat - 'a'.toNat + 10)
  else if 'A' ≤ c && c ≤ 'F' then some (c.toNat - 'A'.toNat + 10)
  else none

def shortEscape? (c : Char) : Option Char :=
  match c with
  | '\x22' => some '\x22'
  | '\\' => some '\\'
  | '/' => some '/'
  | 'b' => some '\x08'
  | 'f' => some '\x0c'
  | 'n' => some '\n'
  | 'r' => some '\x0d'
  | 't' => some '\t'
  | _ => none

inductive NumberPart where
  | sign
  | zero
  | whole
  | point
  | fraction
  | mark
  | markSign
  | exponent
  deriving DecidableEq, Repr

def NumberPart.complete : NumberPart → Bool
  | .zero | .whole | .fraction | .exponent => Bool.true
  | .sign | .point | .mark | .markSign => Bool.false

def NumberPart.reading : NumberPart → Reading
  | .point => .inFraction
  | .mark | .markSign => .inExponent
  | _ => .inNumber

def NumberPart.next (part : NumberPart) (c : Char) : Option NumberPart :=
  match part with
  | .sign => if c = '0' then some .zero else if c.isDigit then some .whole else none
  | .zero =>
    if c = '.' then some .point else if c = 'e' || c = 'E' then some .mark else none
  | .whole =>
    if c.isDigit then some .whole
    else if c = '.' then some .point
    else if c = 'e' || c = 'E' then some .mark
    else none
  | .point => if c.isDigit then some .fraction else none
  | .fraction =>
    if c.isDigit then some .fraction else if c = 'e' || c = 'E' then some .mark else none
  | .mark =>
    if c = '+' || c = '-' then some .markSign else if c.isDigit then some .exponent else none
  | .markSign => if c.isDigit then some .exponent else none
  | .exponent => if c.isDigit then some .exponent else none

inductive Scan where
  | between
  | inString (read : List Piece)
  | inEscape (read : List Piece)
  | inCodePoint (left value : Nat) (read : List Piece)
  | inNumber (part : NumberPart) (first : Char) (read : List Char)
  | inWord (word : Text) (token : Token) (left : List Char)
  deriving DecidableEq, Repr

inductive Opening where
  | enter (state : Scan)
  | token (t : Token)
  | skip
  | stop (c : Char)
  deriving DecidableEq, Repr

def opening (c : Char) : Opening :=
  match c with
  | ' ' | '\t' | '\n' | '\x0d' => .skip
  | '\x7b' => .token .openObject
  | '\x7d' => .token .closeObject
  | '[' => .token .openArray
  | ']' => .token .closeArray
  | ':' => .token .colon
  | ',' => .token .comma
  | '\x22' => .enter (.inString [])
  | 't' => .enter (.inWord "true" .true ['r', 'u', 'e'])
  | 'f' => .enter (.inWord "false" .false ['a', 'l', 's', 'e'])
  | 'n' => .enter (.inWord "null" .null ['u', 'l', 'l'])
  | '-' => .enter (.inNumber .sign '-' ['-'])
  | '0' => .enter (.inNumber .zero '0' ['0'])
  | c => if c.isDigit then .enter (.inNumber .whole c [c]) else .stop c

def numberToken (read : List Char) : Token :=
  .num (Text.ofChars read.reverse)

/-- The token at which the machine stops inside another token, on a character that does not fit.
The end of the text counts as a blank. -/
def Scan.breakAt (c : Char) : Scan → Token
  | .between => .stray c
  | .inString _ => .broken '\x22' (.unexpected c .inString)
  | .inEscape _ => .broken '\x22' (.unexpected c .inEscape)
  | .inCodePoint _ _ _ => .broken '\x22' (.unexpected c .inCodePoint)
  | .inNumber part first _ => .broken first (.unexpected c part.reading)
  | .inWord word token left =>
    .broken token.first (.unexpected c (.inWord word (left.headD ' ')))

def Scan.finish : Scan → List Token
  | .between => []
  | .inString _ => [.broken '\x22' .unexpectedEnd]
  | .inNumber part first read =>
    if part.complete then [numberToken read] else [Scan.breakAt ' ' (.inNumber part first read)]
  | state => [state.breakAt ' ']

def scan : Scan → List Char → List Token
  | state, [] => state.finish
  | .between, c :: rest =>
    match opening c with
    | .enter state => scan state rest
    | .token t => t :: scan .between rest
    | .skip => scan .between rest
    | .stop c => [.stray c]
  | .inString read, c :: rest =>
    if c = '\x22' then .str (piecesText read.reverse) :: scan .between rest
    else if c = '\\' then scan (.inEscape read) rest
    else if c.toNat < 0x20 then [Scan.breakAt c (.inString read)]
    else scan (.inString (.octet (UInt8.ofNat c.toNat) :: read)) rest
  | .inEscape read, c :: rest =>
    if c = 'u' then scan (.inCodePoint 4 0 read) rest
    else
      match shortEscape? c with
      | some e => scan (.inString (.char e :: read)) rest
      | none => [Scan.breakAt c (.inEscape read)]
  | .inCodePoint left value read, c :: rest =>
    match hexValue? c with
    | none => [Scan.breakAt c (.inCodePoint left value read)]
    | some d =>
      if left ≤ 1 then scan (.inString (.unit (value * 16 + d) :: read)) rest
      else scan (.inCodePoint (left - 1) (value * 16 + d) read) rest
  | .inNumber part first read, c :: rest =>
    match part.next c with
    | some part => scan (.inNumber part first (c :: read)) rest
    | none =>
      if part.complete then
        match opening c with
        | .enter state => numberToken read :: scan state rest
        | .token t => numberToken read :: t :: scan .between rest
        | .skip => numberToken read :: scan .between rest
        | .stop c => [numberToken read, .stray c]
      else [Scan.breakAt c (.inNumber part first read)]
  | .inWord word token left, c :: rest =>
    match left with
    | [] => [Scan.breakAt c (.inWord word token left)]
    | expected :: more =>
      if c ≠ expected then [Scan.breakAt c (.inWord word token left)]
      else if more.isEmpty then token :: scan .between rest
      else scan (.inWord word token more) rest

theorem scan_between (c : Char) (rest : List Char) :
    scan .between (c :: rest) =
      match opening c with
      | .enter state => scan state rest
      | .token t => t :: scan .between rest
      | .skip => scan .between rest
      | .stop c => [.stray c] := by
  rw [scan]

def tokens (bytes : List UInt8) : List Token :=
  scan .between (bytes.map fun b => Char.ofNat b.toNat)

end LiteralHoist.Json
