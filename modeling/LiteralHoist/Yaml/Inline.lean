import LiteralHoist.Text.Integer
import LiteralHoist.Yaml.Cursor

/-!
# Plain and quoted scalars

A scalar consists of words and of the gaps between them.  A gap without the end of a line is kept.
In any other gap the blanks are dropped, a single end of a line becomes a blank, and of several the
first is dropped.
-/

set_option autoImplicit false

namespace LiteralHoist.Yaml

structure Gap where
  blanks : List Char := []
  breaks : List Char := []
  escaped : Bool := false
  deriving DecidableEq, Repr

namespace Gap

def isBroken (g : Gap) : Bool :=
  g.escaped || !g.breaks.isEmpty

def text (g : Gap) : List Char :=
  if g.escaped then g.breaks
  else
    match g.breaks with
    | [] => g.blanks
    | ['\n'] => [' ']
    | '\n' :: more => more
    | breaks => breaks

/-- Passes a gap.  A tab in the indentation of a line is refused; lines are indented by `indent`. -/
def pass (indent : Int) : Nat → Gap → Cursor → Option (Gap × Cursor)
  | 0, g, c => some (g, c)
  | steps + 1, g, c =>
    match c.rest with
    | [] => some (g, c)
    | ch :: _ =>
      if isBlank ch then
        if g.isBroken && c.column < indent && ch = '\t' then none
        else
          let g := if g.isBroken then g else { g with blanks := g.blanks ++ [ch] }
          pass indent steps g (c.advance 1)
      else if isBreak ch then
        pass indent steps { g with blanks := [], breaks := g.breaks ++ [keptBreak ch] } c.passBreak
      else some (g, c)

end Gap

/-- Whether a mark of the notation with brackets ends a plain scalar inside of them. -/
def endsInBrackets (c : Char) : Bool :=
  c = ',' || c = '?' || c = '[' || c = ']' || c = '\x7b' || c = '\x7d'

def wordLength (brackets : Bool) : List Char → Nat
  | [] => 0
  | c :: rest =>
    let ends := (c = ':' && atWordEnd rest) || (brackets && endsInBrackets c)
    if isBlank c || isBreak c || ends then 0 else wordLength brackets rest + 1

/-- A plain scalar after the text `before` and a gap: its text, the place after it and whether it
ends in a gap in which a line ends. -/
def plainFrom (brackets : Bool) (indent : Int) :
    Nat → List Char → Gap → Cursor → Option (List Char × Cursor × Bool)
  | 0, before, g, c => some (before, c, g.isBroken)
  | steps + 1, before, g, c =>
    let n := wordLength brackets c.rest
    if c.atDocumentMarker || c.at' '#' || n = 0 then some (before, c, g.isBroken)
    else
      let text := before ++ g.text ++ c.rest.take n
      let c := c.advance n
      if c.rest.isEmpty || !atWordEnd c.rest then some (text, c, false)
      else
        match Gap.pass indent (c.rest.length + 1) {} c with
        | none => none
        | some (g, c) =>
          if !brackets && c.column < indent then some (text, c, g.isBroken)
          else plainFrom brackets indent steps text g c

def plain? (brackets : Bool) (indent : Int) (c : Cursor) : Option (List Char × Cursor × Bool) :=
  plainFrom brackets indent (c.rest.length + 1) [] {} c

def escape? (c : Char) : Option Char :=
  match c with
  | '0' => some '\x00'
  | 'a' => some '\x07'
  | 'b' => some '\x08'
  | 't' => some '\t'
  | '\t' => some '\t'
  | 'n' => some '\n'
  | 'v' => some '\x0b'
  | 'f' => some '\x0c'
  | 'r' => some '\x0d'
  | 'e' => some '\x1b'
  | ' ' => some ' '
  | '\x22' => some '\x22'
  | '\x27' => some '\x27'
  | '/' => some '/'
  | '\\' => some '\\'
  | 'N' => some '\u0085'
  | '_' => some '\u00a0'
  | 'L' => some '\u2028'
  | 'P' => some '\u2029'
  | _ => none

def escapeWidth? (c : Char) : Option Nat :=
  match c with
  | 'x' => some 2
  | 'u' => some 4
  | 'U' => some 8
  | _ => none

def hexNumber? (digits : List Char) : Option Nat :=
  digits.foldlM (fun n c => do
    let d ← Text.digitValue? c
    if d < 16 then some (n * 16 + d) else none) 0

def codePoint? (digits : List Char) (width : Nat) : Option Char :=
  if digits.length < width then none
  else
    match hexNumber? digits with
    | some n => if h : n.isValidChar then some (Char.ofNatAux n h) else none
    | none => none

inductive QuotedStep where
  | char (ch : Char) (width : Nat)
  | escapedBreak
  | done
  deriving DecidableEq, Repr

def doubleStep : List Char → Option QuotedStep
  | '\\' :: c :: rest =>
    if isBreak c then some .escapedBreak
    else
      match escape? c, escapeWidth? c with
      | some e, _ => some (.char e 2)
      | none, some width =>
        (codePoint? (rest.take width) width).map fun e => .char e (width + 2)
      | none, none => none
  | ['\\'] => none
  | c :: _ => some (if c = '\x22' || isBlank c || isBreak c then .done else .char c 1)
  | [] => some .done

def singleStep : List Char → Option QuotedStep
  | '\x27' :: '\x27' :: _ => some (.char '\x27' 2)
  | c :: _ => some (if c = '\x27' || isBlank c || isBreak c then .done else .char c 1)
  | [] => some .done

def quotedFrom (mark : Char) : Nat → List Char → Cursor → Option (List Char × Cursor)
  | 0, _, _ => none
  | steps + 1, before, c =>
    if c.atDocumentMarker then none
    else
      let gapAfter (g : Gap) (c : Cursor) : Option (List Char × Cursor) :=
        match Gap.pass (-1) (c.rest.length + 1) g c with
        | none => none
        | some (g, c) => quotedFrom mark steps (before ++ g.text) c
      match (if mark = '\x27' then singleStep c.rest else doubleStep c.rest) with
      | none => none
      | some (.char ch width) => quotedFrom mark steps (before ++ [ch]) (c.advance width)
      | some .escapedBreak => gapAfter { escaped := true } (c.advance 1).passBreak
      | some .done =>
        match c.rest with
        | [] => none
        | ch :: _ => if ch = mark then some (before, c.advance 1) else gapAfter {} c

def quoted? (mark : Char) (c : Cursor) : Option (List Char × Cursor) :=
  quotedFrom mark (c.rest.length + 1) [] (c.advance 1)

end LiteralHoist.Yaml
