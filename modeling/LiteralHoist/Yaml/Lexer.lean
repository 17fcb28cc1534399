import LiteralHoist.Yaml.BlockScalar
import LiteralHoist.Yaml.Encoding
import LiteralHoist.Yaml.Property

/-!
# Cutting a stream into tokens

Tokens are cut in the order of the text, but a key is known as one only when its colon is met, and
then tokens are put in front of it.  So tokens wait in a queue, and the first of them is given away
only when nothing can be put in front of it any more.
-/

set_option autoImplicit false

namespace LiteralHoist.Yaml

/-- The last place where a key could have started without a mark of its own. -/
structure KeyStart where
  possible : Bool := false
  /-- Whether it has to be a key, because of its indentation. -/
  required : Bool := false
  awaited : Bool := false
  number : Nat := 0
  index : Nat := 0
  line : Nat := 0
  column : Nat := 0
  deriving DecidableEq, Repr

structure Lexer where
  cursor : Cursor
  broken : Bool := false
  /-- Whether the text starts with a second mark, after which a line loses its first character. -/
  marked : Bool := false
  queue : List Token := []
  taken : Nat := 0
  indent : Int := -1
  indents : List Int := []
  keyAllowed : Bool := true
  key : KeyStart := {}
  outerKeys : List KeyStart := []
  deriving DecidableEq, Repr

namespace Lexer

def ofStream (s : Stream) : Lexer where
  cursor := { rest := s.chars }
  broken := s.broken
  marked := s.chars.head? == some encodingMark

def depthLimit : Nat := 10000

/-- The number of characters within which a key has its colon. -/
def keyReach : Nat := 1024

def inBrackets (l : Lexer) : Bool :=
  !l.outerKeys.isEmpty

def nextNumber (l : Lexer) : Nat :=
  l.taken + l.queue.length

def push (l : Lexer) (t : Token) : Lexer :=
  { l with queue := l.queue ++ [t] }

/-- Puts a token in front of the token of a number, or at the end if that was given away. -/
def insertBefore (l : Lexer) (number : Nat) (t : Token) : Lexer :=
  if number < l.taken then l.push t
  else { l with queue := l.queue.insertIdx (number - l.taken) t }

def pushTo (l : Lexer) (t : Token) (c : Cursor) : Lexer :=
  { l.push t with cursor := c }

def openBlock (l : Lexer) (column : Nat) (insert : Lexer → Lexer) : Option Lexer :=
  if l.inBrackets || (column : Int) ≤ l.indent then some l
  else if depthLimit ≤ l.indents.length then none
  else some { insert l with indent := column, indents := l.indent :: l.indents }

/-- The number of blocks that end before a column, with the column of the block that stays and the
columns around it. -/
def endedBlocks (column : Int) : Int → List Int → Nat × Int × List Int
  | indent, [] => (0, indent, [])
  | indent, outer :: rest =>
    if column < indent then
      let (n, stays) := endedBlocks column outer rest
      (n + 1, stays)
    else (0, indent, outer :: rest)

def closeBlocks (l : Lexer) (column : Int) : Lexer :=
  if l.inBrackets then l
  else
    let (n, indent, indents) := endedBlocks column l.indent l.indents
    { l with queue := l.queue ++ List.replicate n .blockEnd, indent, indents }

/-- Whether a colon here would make the start of a key a key.  A key ends on its line and within
its reach, and one that is required must not pass them. -/
def reaches? (l : Lexer) (k : KeyStart) : Option Bool :=
  if !k.possible then some false
  else if k.line < l.cursor.line || k.index + keyReach < l.cursor.index then
    if k.required then none else some false
  else some true

def dropKey (l : Lexer) : Option Lexer :=
  if l.key.possible && l.key.required then none
  else some { l with key := { l.key with possible := false } }

def noteKey (l : Lexer) : Option Lexer :=
  if l.keyAllowed then do
    let l ← l.dropKey
    some { l with
      key := {
        possible := true
        required := !l.inBrackets && l.indent = l.cursor.column
        awaited := true
        number := l.nextNumber
        index := l.cursor.index
        line := l.cursor.line
        column := l.cursor.column } }
  else some l

/-- Whether characters are ends of lines and blanks, few enough to be passed at once, and a comment
after them. -/
def leadsToComment (cs : List Char) : Bool :=
  let gap := cs.takeWhile fun ch => isBlank ch || ch = '\n' || ch = '\x0d'
  gap.length < 512 && (cs.drop gap.length).head? == some '#'

def passGap : Nat → Cursor → Cursor
  | 0, c => c
  | steps + 1, c =>
    match c.next? with
    | none => c
    | some ch =>
      if isBlank ch then passGap steps (c.advance 1)
      else if isBreak ch then passGap steps c.passBreak
      else c

def passComments : Nat → Cursor → Cursor
  | 0, c => c
  | steps + 1, c =>
    let c := c.toLineEnd
    if leadsToComment c.rest then passComments steps (passGap (c.rest.length + 1) c) else c

/-- Whether the place is one where a marked stream loses a character. -/
def losesCharacter (l : Lexer) : Bool :=
  l.marked && l.cursor.column == 0 && (l.cursor.index == 0 || !(l.cursor.rest.drop 3).isEmpty)

/-- Passes what stands before the next token.  A tab may stand where no key can start. -/
def passSpace : Nat → Lexer → Lexer
  | 0, l => l
  | steps + 1, l =>
    let c := if l.losesCharacter then l.cursor.advance 1 else l.cursor
    let tabs := l.inBrackets || !l.keyAllowed
    let c := (c.span fun ch => ch = ' ' || (tabs && ch = '\t')).2
    let c := if c.at' '#' then passComments (c.rest.length + 1) c else c
    match c.next? with
    | none => { l with cursor := c }
    | some ch =>
      if isBreak ch then
        passSpace steps
          { l with cursor := c.passBreak, keyAllowed := l.keyAllowed || !l.inBrackets }
      else { l with cursor := c }

/-- Passes a comment after the last token on its line; after a dash it belongs to what follows. -/
def passLineComment (l : Lexer) : Lexer :=
  let blanks := (l.cursor.rest.takeWhile isBlank).length
  let atComment := (l.cursor.rest.drop blanks).head? == some '#' && blanks < 512
  if l.queue.getLast? == some .blockEntry || l.cursor.afterBreak || !atComment then l
  else { l with cursor := l.cursor.toLineEnd }

def endStream (l : Lexer) : Option Lexer := do
  let c := l.cursor
  let c := if c.column = 0 then c else { c with column := 0, line := c.line + 1 }
  let l ← ({ l with cursor := c }.closeBlocks (-1)).dropKey
  some ({ l with keyAllowed := false }.push .streamEnd)

def betweenDocuments (l : Lexer) (read : Cursor → Option (Token × Cursor)) : Option Lexer := do
  let l ← (l.closeBlocks (-1)).dropKey
  let (t, c) ← read l.cursor
  some ({ l with keyAllowed := false }.pushTo t c)

def openBracket (l : Lexer) (t : Token) : Option Lexer := do
  let l ← l.noteKey
  if depthLimit ≤ l.outerKeys.length then none
  else
    let inside := { l with
      key := { number := l.nextNumber }
      outerKeys := l.key :: l.outerKeys
      keyAllowed := true }
    some (inside.pushTo t (l.cursor.advance 1))

/-- Goes out of brackets.  The token that started them is not held back if no key could start in
them. -/
def leaveBrackets (l : Lexer) : Lexer :=
  match l.outerKeys with
  | [] => l
  | outer :: rest =>
    let outer := if outer.number = l.key.number then { outer with awaited := false } else outer
    { l with key := outer, outerKeys := rest }

def closeBracket (l : Lexer) (t : Token) : Option Lexer := do
  let l ← l.dropKey
  some ({ l.leaveBrackets with keyAllowed := false }.pushTo t (l.cursor.advance 1))

def entryInBrackets (l : Lexer) : Option Lexer := do
  let l ← l.dropKey
  some ({ l with keyAllowed := true }.pushTo .flowEntry (l.cursor.advance 1))

/-- A mark that starts a block of its kind where it is indented; outside of brackets it has to
stand where a key may start. -/
def openByMark (l : Lexer) (block : Token) : Option Lexer :=
  if l.inBrackets then some l
  else if l.keyAllowed then l.openBlock l.cursor.column fun l => l.push block
  else none

def entryInBlock (l : Lexer) : Option Lexer := do
  let l ← l.openByMark .blockSequenceStart
  let l ← l.dropKey
  some ({ l with keyAllowed := true }.pushTo .blockEntry (l.cursor.advance 1))

def markedKey (l : Lexer) : Option Lexer := do
  let l ← l.openByMark .blockMappingStart
  let l ← l.dropKey
  some ({ l with keyAllowed := !l.inBrackets }.pushTo .key (l.cursor.advance 1))

def value (l : Lexer) : Option Lexer := do
  let k := l.key
  if ← l.reaches? k then
    let l := l.insertBefore k.number .key
    let l ← l.openBlock k.column fun l => l.insertBefore k.number .blockMappingStart
    let l := { l with key := { k with possible := false }, keyAllowed := false }
    some (l.pushTo .value (l.cursor.advance 1))
  else
    let l ← l.openByMark .blockMappingStart
    some ({ l with keyAllowed := !l.inBrackets }.pushTo .value (l.cursor.advance 1))

def keyLike (l : Lexer) (read : Cursor → Option (Token × Cursor)) : Option Lexer := do
  let l ← l.noteKey
  let (t, c) ← read l.cursor
  some ({ l with keyAllowed := false }.pushTo t c)

/-- A plain scalar; a key may start after it if a line ends there. -/
def plain (l : Lexer) : Option Lexer := do
  let l ← l.noteKey
  let (text, c, broken) ← plain? l.inBrackets (l.indent + 1) l.cursor
  some ({ l with keyAllowed := broken }.pushTo (.scalar true (Text.ofChars text)) c)

def block (l : Lexer) (folded : Bool) : Option Lexer := do
  let l ← l.dropKey
  let (text, c) ← blockScalar? folded l.indent l.cursor
  some ({ l with keyAllowed := true }.pushTo (.scalar false (Text.ofChars text)) c)

def quoted (mark : Char) (c : Cursor) : Option (Token × Cursor) :=
  (quoted? mark c).map fun (text, c) => (.scalar false (Text.ofChars text), c)

def tokenAt (l : Lexer) (ch : Char) (rest : List Char) : Option Lexer :=
  let indicates := l.inBrackets || atWordEnd rest
  if ch = '[' then l.openBracket .flowSequenceStart
  else if ch = '\x7b' then l.openBracket .flowMappingStart
  else if ch = ']' then l.closeBracket .flowSequenceEnd
  else if ch = '\x7d' then l.closeBracket .flowMappingEnd
  else if ch = ',' then l.entryInBrackets
  else if ch = '-' && atWordEnd rest then l.entryInBlock
  else if ch = '?' && indicates then l.markedKey
  else if ch = ':' && indicates then l.value
  else if ch = '*' then l.keyLike fun c => (name? c).map fun (name, c) => (.alias name, c)
  else if ch = '&' then l.keyLike fun c => (name? c).map fun (name, c) => (.anchor name, c)
  else if ch = '!' then l.keyLike tag?
  else if (ch = '|' || ch = '>') && !l.inBrackets then l.block (ch = '>')
  else if ch = '\x27' || ch = '\x22' then l.keyLike (quoted ch)
  else if isBlank ch || ch ∈ ['|', '>', '%', '@', '\x60'] then none
  else l.plain

def marker (t : Token) (c : Cursor) : Option (Token × Cursor) :=
  some (t, c.advance 3)

def cut (l : Lexer) : Option Lexer :=
  let l := passSpace (l.cursor.rest.length + 1) l
  let l := l.closeBlocks l.cursor.column
  if l.broken && (l.cursor.rest.drop 3).isEmpty then none
  else
    match l.cursor.rest with
    | [] => l.endStream
    | ch :: rest =>
      if l.cursor.column = 0 && ch = '%' then l.betweenDocuments directive?
      else if l.cursor.atMarker '-' then l.betweenDocuments (marker .documentStart)
      else if l.cursor.atMarker '.' then l.betweenDocuments (marker .documentEnd)
      else (l.tokenAt ch rest).map passLineComment

def holdsBack? (l : Lexer) : Option Bool :=
  match (l.key :: l.outerKeys).find? fun k => k.possible && k.awaited && k.number == l.taken with
  | none => some false
  | some k => l.reaches? k

/-- Cuts off tokens until the first can be given away: two more wait behind it, and it is no start
of a key that is still open. -/
def settle : Nat → Lexer → Option Lexer
  | 0, _ => none
  | steps + 1, l => do
    let waits ← if l.queue.length < 3 then some true else l.holdsBack?
    if !waits then some l
    else
      let l ← l.cut
      if l.broken && l.cursor.rest.isEmpty then none else settle steps l

def peek (l : Lexer) : Option (Token × Lexer) := do
  let l ← settle (l.cursor.rest.length + 8) l
  match l.queue with
  | [] => none
  | t :: _ => some (t, l)

def drop (l : Lexer) : Lexer :=
  { l with queue := l.queue.drop 1, taken := l.taken + 1 }

end Lexer

end LiteralHoist.Yaml
