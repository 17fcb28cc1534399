import LiteralHoist.Yaml.Lexer
import LiteralHoist.Yaml.Node

/-!
# Documents

The first document of a stream is read from its tokens.  What follows it is looked at only as far
as tokens are cut off to see where the document ends.  What reads a node, outside or inside of
brackets, is passed to what reads a collection.
-/

set_option autoImplicit false

namespace LiteralHoist.Yaml

structure Reader where
  lexer : Lexer
  handles : List (Text × Text) := []
  names : List (Text × Nat) := []
  named : List (Nat × Node) := []
  deriving Repr

namespace Reader

abbrev Step (α : Type) := StateT Reader Option α

def peek : Step Token := do
  let r ← get
  let (t, lexer) ← (r.lexer.peek : Option _)
  set { r with lexer }
  return t

def pass : Step Unit :=
  modify fun r => { r with lexer := r.lexer.drop }

def refuse {α : Type} : Step α :=
  fun _ => none

structure Properties where
  anchor : Option Text := none
  tag : Option (Text × Text) := none
  deriving DecidableEq, Repr

def anchor (p : Properties) : Step Properties := do
  match ← peek, p.anchor with
  | .anchor name, none => do pass; return { p with anchor := some name }
  | _, _ => return p

def tag (p : Properties) : Step Properties := do
  match ← peek, p.tag with
  | .tag handle suffix, none => do pass; return { p with tag := some (handle, suffix) }
  | _, _ => return p

def properties : Step Properties := do
  let p ← anchor {}
  let p ← tag p
  anchor p

def fullTag (handle suffix : Text) : Step Text := do
  if handle = "" then return suffix
  else
    match (← get).handles.lookup handle with
    | some start => return start ++ suffix
    | none => refuse

def tagOf (p : Properties) : Step (Option Text) := do
  match p.tag with
  | none => return none
  | some (handle, suffix) => return some (← fullTag handle suffix)

/-- Gives a number to the node that is read next, if it has a name. -/
def announce (p : Properties) : Step (Option Nat) := do
  match p.anchor with
  | none => return none
  | some name =>
    let r ← get
    let number := r.names.length
    set { r with names := (name, number) :: r.names }
    return some number

def keep (number : Option Nat) (n : Node) : Step Node := do
  match number with
  | none => return n
  | some number =>
    modify fun r => { r with named := (number, n) :: r.named }
    return n

def unlessAt (ends : List Token) (node : Step Node) : Step Node := do
  if ends.contains (← peek) then return .empty else node

def blockItems (node : Step Node) : Nat → Step (List Node)
  | 0 => refuse
  | steps + 1 => do
    match ← peek with
    | .blockEntry => do
      pass
      let item ← unlessAt [.blockEntry, .blockEnd] node
      return item :: (← blockItems node steps)
    | .blockEnd => do pass; return []
    | _ => refuse

/-- The items of a sequence that is indented like the keys around it. -/
def bareItems (node : Step Node) : Nat → Step (List Node)
  | 0 => refuse
  | steps + 1 => do
    match ← peek with
    | .blockEntry => do
      pass
      let item ← unlessAt [.blockEntry, .key, .value, .blockEnd] node
      return item :: (← bareItems node steps)
    | _ => return []

def valueAfter (ends : List Token) (node : Step Node) : Step Node := do
  match ← peek with
  | .value => do pass; unlessAt ends node
  | _ => return .empty

def blockEntries (node : Step Node) : Nat → Step (List (Node × Node))
  | 0 => refuse
  | steps + 1 => do
    match ← peek with
    | .key => do
      pass
      let key ← unlessAt [.key, .value, .blockEnd] node
      let value ← valueAfter [.key, .value, .blockEnd] node
      return (key, value) :: (← blockEntries node steps)
    | .blockEnd => do pass; return []
    | _ => refuse

def comma (first : Bool) : Step Unit := do
  if first then return ()
  else
    match ← peek with
    | .flowEntry => pass
    | _ => refuse

/-- A mapping of one entry among the items of a sequence in brackets, after the mark of its key.
If the key is left out, the token after the mark counts for it. -/
def pair (node : Step Node) : Step Node := do
  let key ← do
    if [Token.value, .flowEntry, .flowSequenceEnd].contains (← peek) then
      pass
      pure Node.empty
    else node
  let value ← valueAfter [.flowEntry, .flowSequenceEnd] node
  return .mapping [(key, value)]

def itemsInBrackets (node : Step Node) : Nat → Bool → Step (List Node)
  | 0, _ => refuse
  | steps + 1, first => do
    if (← peek) = .flowSequenceEnd then do pass; return []
    else do
      comma first
      match ← peek with
      | .flowSequenceEnd => do pass; return []
      | .key => do
        pass
        let item ← pair node
        return item :: (← itemsInBrackets node steps false)
      | _ => do
        let item ← node
        return item :: (← itemsInBrackets node steps false)

def entriesInBrackets (node : Step Node) : Nat → Bool → Step (List (Node × Node))
  | 0, _ => refuse
  | steps + 1, first => do
    if (← peek) = .flowMappingEnd then do pass; return []
    else do
      comma first
      match ← peek with
      | .flowMappingEnd => do pass; return []
      | .key => do
        pass
        let key ← unlessAt [.value, .flowEntry, .flowMappingEnd] node
        let value ← valueAfter [.flowEntry, .flowMappingEnd] node
        return (key, value) :: (← entriesInBrackets node steps false)
      | _ => do
        let key ← node
        return (key, .empty) :: (← entriesInBrackets node steps false)

def aliased (name : Text) : Step Node := do
  match (← get).names.lookup name with
  | some number => return .alias name number
  | none => refuse

/-- The content of a node with properties.  `inBlock` tells whether blocks may start, and `bare`
whether a sequence need not be indented. -/
def content (node : Bool → Bool → Step Node) (steps : Nat) (inBlock bare : Bool)
    (p : Properties) : Step Node := do
  let tag ← tagOf p
  let number ← announce p
  match ← peek with
  | .blockEntry =>
    if bare then do keep number (.sequence (← bareItems (node true false) steps))
    else if p = {} then refuse
    else keep number (.scalar tag true "")
  | .scalar plain text => do pass; keep number (.scalar tag plain text)
  | .flowSequenceStart => do
    pass
    keep number (.sequence (← itemsInBrackets (node false false) steps true))
  | .flowMappingStart => do
    pass
    keep number (.mapping (← entriesInBrackets (node false false) steps true))
  | t => do
    if inBlock && t = .blockSequenceStart then do
      pass
      keep number (.sequence (← blockItems (node true false) steps))
    else if inBlock && t = .blockMappingStart then do
      pass
      keep number (.mapping (← blockEntries (node true true) steps))
    else if p = {} then refuse
    else keep number (.scalar tag true "")

/-- Reads a node; `steps` bounds its depth and the number of its parts. -/
def node : Nat → Bool → Bool → Step Node
  | 0, _, _ => refuse
  | steps + 1, inBlock, bare => do
    match ← peek with
    | .alias name => do
      let n ← aliased name
      pass
      return n
    | _ => content (node steps) steps inBlock bare (← properties)

def defaultHandles : List (Text × Text) :=
  [("!", "!"), ("!!", standardTags)]

/-- Reads the directives before a document; a version and a handle may be given once, and the
version has to be the one that is understood. -/
def directives : Nat → Bool → List (Text × Text) → Step (List (Text × Text))
  | 0, _, _ => refuse
  | steps + 1, versioned, handles => do
    match ← peek with
    | .version major minor => do
      if versioned || major ≠ 1 || minor ≠ 1 then refuse
      else
        pass
        directives steps true handles
    | .tagHandle handle start => do
      if (handles.lookup handle).isSome then refuse
      else
        pass
        directives steps versioned (handles ++ [(handle, start)])
    | _ => return handles

def rootAfterMarker (steps : Nat) : Step Node := do
  match ← peek with
  | .version .. | .tagHandle .. | .documentStart | .documentEnd | .streamEnd => return .empty
  | _ => node steps true false

def root (steps : Nat) : Step (Option Node) := do
  match ← peek with
  | .streamEnd => return none
  | .version .. | .tagHandle .. | .documentStart => do
    let handles ← directives steps false []
    modify fun r => { r with handles := handles ++ defaultHandles }
    if (← peek) = .documentStart then do
      pass
      return some (← rootAfterMarker steps)
    else refuse
  | _ => do
    modify fun r => { r with handles := defaultHandles }
    return some (← node steps true false)

def document (steps : Nat) : Step (Option Document) := do
  match ← root steps with
  | none => return none
  | some root => do
    let _ ← peek
    let r ← get
    return some { root, named := r.named, size := r.lexer.taken }

end Reader

def Document.read? (bytes : List UInt8) : Option (Option Document) :=
  let stream := Stream.ofOctets bytes
  let steps := 4 * stream.chars.length + 8
  ((Reader.document steps).run { lexer := Lexer.ofStream stream }).map Prod.fst

end LiteralHoist.Yaml
