import LiteralHoist.Text.Quoted
import LiteralHoist.Source.Kind

/-!
# Literals and their source text

A literal keeps its value and, when it was parsed, the text it was written as.  A literal without
text is written from its value, with the escapes of the language.
-/

set_option autoImplicit false

namespace LiteralHoist.Source

structure Literal where
  kind : LiteralKind := .string
  value : Text := ""
  /-- The literal as it was written, escapes included, or empty. -/
  source : Text := ""
  type : Text := ""
  deriving DecidableEq, Repr, Inhabited

def escapedChar (c : Char) : List Char :=
  if c = '\x22' then ['\\', '\x22']
  else if c = '\\' then ['\\', '\\']
  else if c = '\n' then ['\\', 'n']
  else if c = '\x0d' then ['\\', 'r']
  else if c = '\t' then ['\\', 't']
  else if c = '\x08' then ['\\', 'b']
  else if c = '\x0c' then ['\\', 'f']
  else if c.toNat < 0x20 then '\\' :: 'u' :: Text.hexDigits 4 c.toNat
  else [c]

def escaped (s : Text) : List Char :=
  s.chars.flatMap escapedChar

def stringLiteral (s : Text) : Text :=
  Text.ofChars ('\x22' :: (escaped s ++ ['\x22']))

/-- A value as a character literal, with the escapes of string literals. -/
def charLiteral (s : Text) : Text :=
  Text.ofChars ('\x27' :: (escaped s ++ ['\x27']))

def Literal.text (lit : Literal) : Text :=
  if lit.source ≠ "" then lit.source
  else
    match lit.kind with
    | .string => stringLiteral lit.value
    | .char => charLiteral lit.value
    | .null => "null"
    | .int | .float | .bool => lit.value

def isStringType (type : Text) : Bool :=
  type == "String" || type == "java.lang.String"

/-- Whether the literal is a string of the string type; a null of that type is none. -/
def Literal.isString (lit : Literal) : Bool :=
  lit.kind == .string && isStringType lit.type

end LiteralHoist.Source
