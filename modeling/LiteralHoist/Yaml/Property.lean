import LiteralHoist.Text.Decimal
import LiteralHoist.Yaml.Inline
import LiteralHoist.Yaml.Token

/-!
# Anchors, tags and directives

A node may have a name, by which it can be repeated later, and a tag.  A tag consists of a handle,
which stands for the start of tags, and a suffix.  Directives say which version a stream has and
what handles stand for.
-/

set_option autoImplicit false

namespace LiteralHoist.Yaml

def isWord (c : Char) : Bool :=
  c.isAlphanum || c = '_' || c = '-'

def atNameEnd (cs : List Char) : Bool :=
  atWordEnd cs ||
    match cs with
    | [] => true
    | c :: _ => c ∈ ['?', ':', ',', ']', '\x7d', '%', '@', '\x60']

def name? (c : Cursor) : Option (Text × Cursor) :=
  let (name, c) := (c.advance 1).span isWord
  if !name.isEmpty && atNameEnd c.rest then some (Text.ofChars name, c) else none

def isTagChar (c : Char) : Bool :=
  isWord c || c ∈ [';', '/', '?', ':', '@', '&', '=', '+', '$', ',', '.', '!', '~', '*', '\x27',
    '(', ')', '[', ']']

def percentOctet? : List Char → Option UInt8
  | '%' :: a :: b :: _ => (hexNumber? [a, b]).map Nat.toUInt8
  | _ => none

def escapedWidth? (b : UInt8) : Option Nat :=
  if b < 0x80 then some 1
  else if b < 0xC0 then none
  else if b < 0xE0 then some 2
  else if b < 0xF0 then some 3
  else if b < 0xF8 then some 4
  else none

def escapedTails? : Nat → Cursor → Option (List UInt8 × Cursor)
  | 0, c => some ([], c)
  | n + 1, c => do
    let b ← percentOctet? c.rest
    if !Text.isTail b then none
    else
      let (octets, c) ← escapedTails? n (c.advance 3)
      some (b :: octets, c)

def escapedChar? (c : Cursor) : Option (List UInt8 × Cursor) := do
  let b ← percentOctet? c.rest
  let width ← escapedWidth? b
  let (octets, c) ← escapedTails? (width - 1) (c.advance 3)
  some (b :: octets, c)

def tagPart? : Nat → List UInt8 → Cursor → Option (List UInt8 × Cursor)
  | 0, before, c => some (before, c)
  | steps + 1, before, c =>
    match c.next? with
    | none => some (before, c)
    | some ch =>
      if ch = '%' then
        match escapedChar? c with
        | none => none
        | some (octets, c) => tagPart? steps (before ++ octets) c
      else if isTagChar ch then tagPart? steps (before ++ String.utf8EncodeChar ch) (c.advance 1)
      else some (before, c)

def tagText? (c : Cursor) : Option (Text × Cursor) :=
  match tagPart? (c.rest.length + 1) [] c with
  | some ([], _) => none
  | some (octets, c) => some (⟨octets⟩, c)
  | none => none

def handle? (c : Cursor) : Option (List Char × Cursor) :=
  if c.at' '!' then
    let (word, c) := (c.advance 1).span isWord
    if c.at' '!' then some ('!' :: word ++ ['!'], c.advance 1) else some ('!' :: word, c)
  else none

def isClosedHandle (handle : List Char) : Bool :=
  2 ≤ handle.length && handle.getLast? == some '!'

/-- The tag at a place.  A tag between angle brackets has no handle, and neither has the mark
alone. -/
def tag? (c : Cursor) : Option (Token × Cursor) := do
  let (token, c) ←
    match c.rest with
    | '!' :: '<' :: _ => do
      let (suffix, c) ← tagText? (c.advance 2)
      if c.at' '>' then some (Token.tag "" suffix, c.advance 1) else none
    | _ => do
      let (handle, c) ← handle? c
      if isClosedHandle handle then
        let (suffix, c) ← tagText? c
        some (Token.tag (Text.ofChars handle) suffix, c)
      else
        let start := (Text.ofChars (handle.drop 1)).octets
        let (suffix, c) ← tagPart? (c.rest.length + 1) start c
        some (if suffix.isEmpty then Token.tag "" "!" else Token.tag "!" ⟨suffix⟩, c)
  if atWordEnd c.rest then some (token, c) else none

def versionNumber? (c : Cursor) : Option (Nat × Cursor) :=
  let (digits, c) := c.span Char.isDigit
  if digits.isEmpty || 2 < digits.length then none else some (Text.digitsValue digits, c)

def version? (c : Cursor) : Option (Token × Cursor) := do
  let (major, c) ← versionNumber? c.passBlanks
  if c.at' '.' then
    let (minor, c) ← versionNumber? (c.advance 1)
    some (.version major minor, c)
  else none

def tagHandle? (c : Cursor) : Option (Token × Cursor) := do
  let (handle, c) ← handle? c.passBlanks
  let blank := match c.next? with
    | some ch => isBlank ch
    | none => false
  if blank && (handle = ['!'] || isClosedHandle handle) then
    let (start, c) ← tagText? c.passBlanks
    if atWordEnd c.rest then some (.tagHandle (Text.ofChars handle) start, c) else none
  else none

def directive? (c : Cursor) : Option (Token × Cursor) := do
  let (name, c) := (c.advance 1).span isWord
  let (token, c) ←
    if !atWordEnd c.rest then none
    else if name = ['Y', 'A', 'M', 'L'] then version? c
    else if name = ['T', 'A', 'G'] then tagHandle? c
    else none
  let c := c.passBlanks
  let c := if c.at' '#' then c.toLineEnd else c
  if atLineEnd c.rest then some (token, c.passBreak) else none

end LiteralHoist.Yaml
