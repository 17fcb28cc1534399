import LiteralHoist.Json.Malformed
import LiteralHoist.Json.Value

/-!
# Writing JSON

Values are written over several lines, one item or member a line, indented by tabs.  Strings are
written so that they may also stand inside markup: the characters with a meaning there are
escaped, and so are the two line separators of Unicode.  A value with more containers in each other
than a reader accepts is not written.
-/

set_option autoImplicit false

namespace LiteralHoist.Json

def stringChar (c : Char) : List Char :=
  if c = '\x22' then ['\\', '\x22']
  else if c = '\\' then ['\\', '\\']
  else if c = '\n' then ['\\', 'n']
  else if c = '\x0d' then ['\\', 'r']
  else if c = '\t' then ['\\', 't']
  else if c = '\x08' then ['\\', 'b']
  else if c = '\x0c' then ['\\', 'f']
  else if c.toNat < 0x20 || c = '<' || c = '>' || c = '&' || c = '\u2028' || c = '\u2029' then
    '\\' :: 'u' :: Text.hexDigits 4 c.toNat
  else [c]

/-- One letter of a string; a stray octet is written as the replacement character, by its code
point. -/
def stringLetter : Text.Letter → List Char
  | .char c => stringChar c
  | .stray _ => '\\' :: 'u' :: Text.hexDigits 4 Text.replacement.toNat

def quotedString (s : Text) : List Char :=
  '\x22' :: (s.letters.flatMap stringLetter ++ ['\x22'])

def newLine (level : Nat) : List Char :=
  '\n' :: List.replicate level '\t'

mutual

/-- The lines of a value at an indentation, without the indentation of the first, before a rest. -/
def lines (level : Nat) : Json → List Char → List Char
  | .null, rest => 'n' :: 'u' :: 'l' :: 'l' :: rest
  | .bool Bool.true, rest => 't' :: 'r' :: 'u' :: 'e' :: rest
  | .bool Bool.false, rest => 'f' :: 'a' :: 'l' :: 's' :: 'e' :: rest
  | .num text, rest => text.chars ++ rest
  | .str s, rest => quotedString s ++ rest
  | .arr [], rest => '[' :: ']' :: rest
  | .arr (item :: items), rest =>
    '[' :: (newLine (level + 1) ++ lines (level + 1) item
      (itemLines (level + 1) items (newLine level ++ ']' :: rest)))
  | .obj [], rest => '\x7b' :: '\x7d' :: rest
  | .obj (member :: members), rest =>
    '\x7b' :: (newLine (level + 1) ++ memberLines (level + 1) member
      (membersLines (level + 1) members (newLine level ++ '\x7d' :: rest)))

def itemLines (level : Nat) : List Json → List Char → List Char
  | [], rest => rest
  | item :: items, rest =>
    ',' :: (newLine level ++ lines level item (itemLines level items rest))

def memberLines (level : Nat) : Text × Json → List Char → List Char
  | (key, v), rest => quotedString key ++ ':' :: ' ' :: lines level v rest

def membersLines (level : Nat) : List (Text × Json) → List Char → List Char
  | [], rest => rest
  | member :: members, rest =>
    ',' :: (newLine level ++ memberLines level member (membersLines level members rest))

end

def print (v : Json) : Text :=
  Text.ofChars (lines 0 v ['\n'])

mutual

/-- The first bracket of a value that opens a container when no more may be open. -/
def tooDeep? (opened : Nat) : Json → Option Char
  | .arr items => if opened < maxDepth then tooDeepItem? (opened + 1) items else some '['
  | .obj members => if opened < maxDepth then tooDeepMember? (opened + 1) members else some '\x7b'
  | _ => none

def tooDeepItem? (opened : Nat) : List Json → Option Char
  | [] => none
  | item :: items =>
    match tooDeep? opened item with
    | some bracket => some bracket
    | none => tooDeepItem? opened items

def tooDeepMember? (opened : Nat) : List (Text × Json) → Option Char
  | [] => none
  | (_, v) :: members =>
    match tooDeep? opened v with
    | some bracket => some bracket
    | none => tooDeepMember? opened members

end

def write (v : Json) : Except Malformed Text :=
  match tooDeep? 0 v with
  | some bracket => .error (.unexpected bracket .beyondDepth)
  | none => .ok v.print

end LiteralHoist.Json
