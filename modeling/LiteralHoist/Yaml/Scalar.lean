import LiteralHoist.Text.Decimal
import LiteralHoist.Text.Integer
import LiteralHoist.Yaml.Node

/-!
# Scalars

A quoted scalar is a text; what a plain one means depends on its spelling.  A tag of the standard
demands a kind of meaning.
-/

set_option autoImplicit false

namespace LiteralHoist.Yaml

inductive Meaning where
  | null
  | bool (b : Bool)
  | int (n : Int)
  | float (whole : Int)
  | infinite (negative : Bool)
  | notANumber
  | text (s : Text)
  deriving DecidableEq, Repr

def special? (s : Text) : Option Meaning :=
  let oneOf (spellings : List Text) : Bool := spellings.contains s
  if oneOf ["", "~", "null", "Null", "NULL"] then some .null
  else if oneOf ["true", "True", "TRUE"] then some (.bool true)
  else if oneOf ["false", "False", "FALSE"] then some (.bool false)
  else if oneOf [".nan", ".NaN", ".NAN"] then some .notANumber
  else if oneOf [".inf", ".Inf", ".INF", "+.inf", "+.Inf", "+.INF"] then some (.infinite false)
  else if oneOf ["-.inf", "-.Inf", "-.INF"] then some (.infinite true)
  else none

/-- A number after the mark of a base, which may come before a sign of the number. -/
def markedInteger? : List Char → Option Int
  | '0' :: 'b' :: rest => (Text.integerIn 2 rest).toOption
  | '0' :: 'o' :: rest => (Text.integerIn 8 rest).toOption
  | _ => none

def number? (s : List Char) : Option Meaning :=
  let bare := s.filter (· ≠ '_')
  match Text.integer bare with
  | .ok n => some (.int n)
  | .error _ =>
    match Text.readUnsigned bare with
    | .ok n => some (.int n)
    | .error _ =>
      match Text.decimalWhole? bare with
      | some whole => some (.float whole)
      | none => (markedInteger? bare).map .int

def fraction? (s : List Char) : Option Meaning :=
  if Text.separatesDigits false false false s then
    (Text.decimalWhole? (s.filter (· ≠ '_'))).map .float
  else none

def plainMeaning (s : Text) : Meaning :=
  match special? s with
  | some m => m
  | none =>
    let cs := s.chars
    let number :=
      match cs with
      | '.' :: _ => fraction? cs
      | c :: _ => if c = '+' || c = '-' || c.isDigit then number? cs else none
      | [] => none
    number.getD (.text s)

def Meaning.tag : Meaning → Text
  | .null => standardTags ++ "null"
  | .bool _ => standardTags ++ "bool"
  | .int _ => standardTags ++ "int"
  | .float _ | .infinite _ | .notANumber => standardTags ++ "float"
  | .text _ => standardTags ++ "str"

/-- The meaning of a spelling under a tag of the standard: it has to be of that kind, where a
signed integer may stand for a number with a fraction. -/
def meaningUnder? (tag : Text) (s : Text) : Option Meaning :=
  let m := plainMeaning s
  if m.tag = tag then some m
  else
    match m with
    | .int n =>
      if tag = standardTags ++ "float" && n < Text.signedBound then
        (Text.decimalWhole? (Text.ofInt n).chars).map .float
      else none
    | _ => none

def meaning? (tag : Option Text) (plain : Bool) (s : Text) : Option Meaning :=
  let oneOf (tag : Text) (names : List Text) : Bool :=
    names.any fun name => tag = standardTags ++ name
  match tag with
  | none => some (if plain then plainMeaning s else .text s)
  | some tag =>
    if tag = "!" then some (if plain then plainMeaning s else .text s)
    else if oneOf tag ["bool", "int", "float", "null"] then meaningUnder? tag s
    else if oneOf tag ["binary", "timestamp"] then none
    else some (.text s)

/-- The signed word that a meaning stands for, if it stands for one.  A fraction loses what comes
after the point, and one below the least word counts as the least. -/
def Meaning.word? : Meaning → Option Int
  | .int n => if n < Text.signedBound then some n else none
  | .float whole =>
    if (Text.signedBound : Int) < whole then none
    else if whole = Text.signedBound || whole < -Text.signedBound then
      some (-Text.signedBound)
    else some whole
  | .infinite true => some (-Text.signedBound)
  | _ => none

def Meaning.truth? : Meaning → Option Bool
  | .bool b => some b
  | .text s =>
    let oneOf (spellings : List Text) : Bool := spellings.contains s
    if oneOf ["y", "Y", "yes", "Yes", "YES", "on", "On", "ON"] then some true
    else if oneOf ["n", "N", "no", "No", "NO", "off", "Off", "OFF"] then some false
    else none
  | _ => none

end LiteralHoist.Yaml
