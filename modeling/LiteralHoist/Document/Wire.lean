import LiteralHoist.Text.Basic

/-!
# The wire form

Documents exchange trees in a nested form in which all nodes have the same keys; a node uses those
that its kind asks for.  The form does not depend on the encoding: every encoding writes the keys
of `Key.all` in this order and leaves out the empty ones.

A node holds a value for each key of a finite type, so that a key is read by applying a function
and written by replacing the function at the key.
-/

set_option autoImplicit false

namespace LiteralHoist.Document

inductive TextKey where
  | kind
  | name
  | fqn
  | package
  | type
  | result
  | op
  | lit
  | value
  | source
  | className
  deriving DecidableEq, Repr

inductive NumberKey where
  | line
  | col
  deriving DecidableEq, Repr

inductive WordsKey where
  | imports
  | mods
  deriving DecidableEq, Repr

inductive ListSlot where
  | annotations
  | classes
  | members
  | params
  | vars
  | args
  | stmts
  deriving DecidableEq, Repr

inductive Slot where
  | body
  | init
  | x
  | y
  | cond
  | thenBranch
  | elseBranch
  | recv
  | lhs
  | rhs
  deriving DecidableEq, Repr

inductive Key where
  | text (key : TextKey)
  | number (key : NumberKey)
  | words (key : WordsKey)
  | field
  | many (slot : ListSlot)
  | one (slot : Slot)
  deriving DecidableEq, Repr

def Key.all : List Key :=
  [.text .kind, .number .line, .number .col, .text .name, .text .fqn, .text .package,
   .words .imports, .words .mods, .text .type, .text .result, .text .op, .text .lit, .text .value,
   .text .source, .text .className, .field, .many .annotations, .many .classes, .many .members,
   .many .params, .many .vars, .many .args, .many .stmts, .one .body, .one .init, .one .x, .one .y,
   .one .cond, .one .thenBranch, .one .elseBranch, .one .recv, .one .lhs, .one .rhs]

def Slot.label : Slot → Text
  | .body => "body"
  | .init => "init"
  | .x => "x"
  | .y => "y"
  | .cond => "cond"
  | .thenBranch => "then"
  | .elseBranch => "else"
  | .recv => "recv"
  | .lhs => "lhs"
  | .rhs => "rhs"

def Key.label : Key → Text
  | .text .kind => "kind"
  | .text .name => "name"
  | .text .fqn => "fqn"
  | .text .package => "package"
  | .text .type => "type"
  | .text .result => "result"
  | .text .op => "op"
  | .text .lit => "lit"
  | .text .value => "value"
  | .text .source => "source"
  | .text .className => "class"
  | .number .line => "line"
  | .number .col => "col"
  | .words .imports => "imports"
  | .words .mods => "mods"
  | .field => "field"
  | .many .annotations => "annotations"
  | .many .classes => "classes"
  | .many .members => "members"
  | .many .params => "params"
  | .many .vars => "vars"
  | .many .args => "args"
  | .many .stmts => "stmts"
  | .one slot => slot.label

inductive FieldKey where
  | owner
  | name
  | mods
  | type
  deriving DecidableEq, Repr

def FieldKey.all : List FieldKey :=
  [.owner, .name, .mods, .type]

def FieldKey.label : FieldKey → Text
  | .owner => "owner"
  | .name => "name"
  | .mods => "mods"
  | .type => "type"

inductive DocumentKey where
  | version
  | units
  deriving DecidableEq, Repr

def DocumentKey.all : List DocumentKey :=
  [.version, .units]

def DocumentKey.label : DocumentKey → Text
  | .version => "version"
  | .units => "units"

structure WireField where
  owner : Text := ""
  name : Text := ""
  mods : List Text := []
  type : Text := ""
  deriving DecidableEq, Repr, Inhabited

/-- The keys of a node that hold no node. -/
structure Attributes where
  text : TextKey → Text := fun _ => ""
  number : NumberKey → Int := fun _ => 0
  words : WordsKey → List Text := fun _ => []
  field : Option WireField := none

namespace Attributes

def setText (a : Attributes) (key : TextKey) (s : Text) : Attributes :=
  { a with text := fun k => if k = key then s else a.text k }

def setNumber (a : Attributes) (key : NumberKey) (n : Int) : Attributes :=
  { a with number := fun k => if k = key then n else a.number k }

def setWords (a : Attributes) (key : WordsKey) (ws : List Text) : Attributes :=
  { a with words := fun k => if k = key then ws else a.words k }

end Attributes

/-- The wire form of a node: attributes, the lists of nodes and the single nodes. -/
inductive Wire where
  | node (attrs : Attributes) (many : ListSlot → List (Option Wire)) (one : Slot → Option Wire)

namespace Wire

def empty : Wire :=
  .node {} (fun _ => []) (fun _ => none)

def attrs : Wire → Attributes
  | .node a _ _ => a

def many : Wire → ListSlot → List (Option Wire)
  | .node _ m _ => m

def one : Wire → Slot → Option Wire
  | .node _ _ o => o

def setAttrs (w : Wire) (a : Attributes) : Wire :=
  .node a w.many w.one

def setMany (w : Wire) (slot : ListSlot) (ws : List (Option Wire)) : Wire :=
  .node w.attrs (fun s => if s = slot then ws else w.many s) w.one

def setOne (w : Wire) (slot : Slot) (child : Option Wire) : Wire :=
  .node w.attrs w.many (fun s => if s = slot then child else w.one s)

end Wire

structure WireDocument where
  version : Text := ""
  units : List (Option Wire) := []

end LiteralHoist.Document
