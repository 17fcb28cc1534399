import LiteralHoist.Json.Token
import LiteralHoist.Json.Value

/-!
# Reading JSON

The parser takes the tokens one by one.  The containers that are not yet closed stand in a list,
innermost first, and their number is limited.
-/

set_option autoImplicit false

namespace LiteralHoist.Json

/-- A container that waits for one of its values; what it has stands last first. -/
inductive Open where
  | arr (items : List Json)
  | obj (members : List (Text × Json)) (key : Text)
  deriving Repr

inductive Expecting where
  | value
  | firstItem
  | afterItem (items : List Json)
  | firstKey
  | nextKey (members : List (Text × Json))
  | colon (members : List (Text × Json)) (key : Text)
  | afterMember (members : List (Text × Json))
  | finish (v : Json)
  deriving Repr

def Expecting.reading : Expecting → Reading
  | .value | .firstItem => .value
  | .afterItem _ => .afterItem
  | .firstKey | .nextKey _ => .objectKey
  | .colon _ _ => .afterKey
  | .afterMember _ => .afterMember
  | .finish _ => .afterEnd

def deliver (v : Json) : List Open → List Open × Expecting
  | [] => ([], .finish v)
  | .arr items :: outer => (outer, .afterItem (v :: items))
  | .obj members key :: outer => (outer, .afterMember ((key, v) :: members))

def Token.value? : Token → Option Json
  | .str s => some (.str s)
  | .num text => some (.num text)
  | .true => some (.bool Bool.true)
  | .false => some (.bool Bool.false)
  | .null => some .null
  | _ => none

def Token.beginsValue (first : Char) : Bool :=
  first = '\x22' || first = '-' || first.isDigit || first = 't' || first = 'f' || first = 'n'

/-- The fault at a token that does not fit.  A broken token whose beginning fits is at fault
where it breaks. -/
def misfit (expecting : Expecting) (token : Token) : Malformed :=
  let refused := Malformed.unexpected token.first expecting.reading
  match token with
  | .broken first cause =>
    match expecting with
    | .value | .firstItem => if Token.beginsValue first then cause else refused
    | .firstKey | .nextKey _ => if first = '\x22' then cause else refused
    | _ => refused
  | _ => refused

def startValue (expecting : Expecting) (opened : List Open) (depth : Nat) (token : Token) :
    Except Malformed (List Open × Nat × Expecting) :=
  match token with
  | .openArray =>
    if depth < maxDepth then .ok (opened, depth + 1, .firstItem)
    else .error (.unexpected '[' .beyondDepth)
  | .openObject =>
    if depth < maxDepth then .ok (opened, depth + 1, .firstKey)
    else .error (.unexpected '\x7b' .beyondDepth)
  | token =>
    match token.value? with
    | some v =>
      let (opened, expecting) := deliver v opened
      .ok (opened, depth, expecting)
    | none => .error (misfit expecting token)

def close (v : Json) (opened : List Open) (depth : Nat) : List Open × Nat × Expecting :=
  let (opened, expecting) := deliver v opened
  (opened, depth - 1, expecting)

/-- The parser after one token: the open containers, their number and what is expected. -/
def step (opened : List Open) (depth : Nat) (expecting : Expecting) (token : Token) :
    Except Malformed (List Open × Nat × Expecting) :=
  match expecting, token with
  | .value, token => startValue .value opened depth token
  | .firstItem, .closeArray => .ok (close (.arr []) opened depth)
  | .firstItem, token => startValue .firstItem (.arr [] :: opened) depth token
  | .afterItem items, .comma => .ok (.arr items :: opened, depth, .value)
  | .afterItem items, .closeArray => .ok (close (.arr items.reverse) opened depth)
  | .firstKey, .closeObject => .ok (close (.obj []) opened depth)
  | .firstKey, .str key => .ok (opened, depth, .colon [] key)
  | .nextKey members, .str key => .ok (opened, depth, .colon members key)
  | .colon members key, .colon => .ok (.obj members key :: opened, depth, .value)
  | .afterMember members, .comma => .ok (opened, depth, .nextKey members)
  | .afterMember members, .closeObject => .ok (close (.obj members.reverse) opened depth)
  | expecting, token => .error (misfit expecting token)

def parseTokens (opened : List Open) (depth : Nat) (expecting : Expecting) :
    List Token → Except Malformed Json
  | [] =>
    match expecting with
    | .finish v => .ok v
    | _ => .error .unexpectedEnd
  | token :: rest =>
    match step opened depth expecting token with
    | .error e => .error e
    | .ok (opened, depth, expecting) => parseTokens opened depth expecting rest

def parse (bytes : List UInt8) : Except Malformed Json :=
  parseTokens [] 0 .value (tokens bytes)

end LiteralHoist.Json
