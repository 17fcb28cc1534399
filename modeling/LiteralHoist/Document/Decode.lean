import LiteralHoist.Document.Wire
import LiteralHoist.Source.Tree

/-!
# From the wire form to trees

A node is checked against the grammar of trees while it is added: its kind has to be known and
allowed in its place, its modifiers have to be known, and the children that its kind cannot do
without have to be present.  Children are added before their parents, in source order, so that
each node has a greater number than the nodes below it.  Missing entries of lists are dropped.
-/

set_option autoImplicit false

namespace LiteralHoist.Document

open LiteralHoist.Source

inductive Violation where
  | unknownKind (name : Text)
  | misplaced (kind : Kind) (allowed : List Kind)
  | unknownModifier (unknown : Modifiers.Unknown)
  | noVariables
  | unknownLiteral (name : Text)
  | missing (kind : Kind) (slot : Slot)
  deriving DecidableEq, Repr

def Violation.message : Violation → Text
  | .unknownKind name => "unknown node kind " ++ Text.quoted name
  | .misplaced kind allowed =>
    "unexpected " ++ kind.name ++ ", want " ++ Kind.listText allowed
  | .unknownModifier unknown => unknown.message
  | .noVariables => "declaration without variables"
  | .unknownLiteral name => "unknown literal kind " ++ Text.quoted name
  | .missing kind slot => kind.name ++ " without " ++ slot.label

structure NodeError where
  pos : Position
  violation : Violation
  deriving DecidableEq, Repr

def NodeError.message (e : NodeError) : Text :=
  if e.pos.isKnown then e.pos.text ++ ": " ++ e.violation.message else e.violation.message

abbrev Adding := StateT Tree (Except NodeError)

def append (n : Node) : Adding NodeId := fun t =>
  let (t, id) := t.push n
  .ok (id, t)

def Attributes.pos (a : Attributes) : Position :=
  { line := a.number .line, col := a.number .col }

def Attributes.refuse {α : Type} (a : Attributes) (v : Violation) : Except NodeError α :=
  .error { pos := a.pos, violation := v }

def Attributes.checkedKind (a : Attributes) (allowed : List Kind) : Except NodeError Kind :=
  match Kind.ofName? (a.text .kind) with
  | none => a.refuse (.unknownKind (a.text .kind))
  | some kind => if kind ∈ allowed then .ok kind else a.refuse (.misplaced kind allowed)

def Attributes.checkedMods (a : Attributes) (words : List Text) : Except NodeError Modifiers :=
  match Modifiers.ofWords words with
  | .ok mods => .ok mods
  | .error unknown => a.refuse (.unknownModifier unknown)

/-- The literal kind of a node; a string if it is not given. -/
def Attributes.checkedLiteral (a : Attributes) : Except NodeError LiteralKind :=
  if a.text .lit = "" then .ok .string
  else
    match LiteralKind.ofName? (a.text .lit) with
    | some kind => .ok kind
    | none => a.refuse (.unknownLiteral (a.text .lit))

def Attributes.checkedField (a : Attributes) : Except NodeError (Option FieldSymbol) :=
  match a.field with
  | none => .ok none
  | some f => do
    let mods ← a.checkedMods f.mods
    return some { owner := f.owner, name := f.name, mods, type := f.type }

def Attributes.require (a : Attributes) (kind : Kind) (slot : Slot) (child : Option Wire) :
    Except NodeError Unit :=
  match child with
  | some _ => .ok ()
  | none => a.refuse (.missing kind slot)

mutual

def addNode : Wire → List Kind → Adding NodeId
  | .node attrs many one, allowed => do
    let kind ← attrs.checkedKind allowed
    let pos := attrs.pos
    let mods ← attrs.checkedMods (attrs.words .mods)
    let name := attrs.text .name
    let type := attrs.text .type
    let op := attrs.text .op
    let list (slot : ListSlot) (allowed : List Kind) : Adding (List NodeId) :=
      addList (many slot) allowed
    let child (slot : Slot) (allowed : List Kind) : Adding NodeId :=
      addOption (one slot) allowed
    let must (slot : Slot) (allowed : List Kind) : Adding NodeId := do
      attrs.require kind slot (one slot)
      addOption (one slot) allowed
    let form : Form ← match kind with
      | .unit =>
        let classes ← list .classes [.classDecl]
        pure (.unit {
          name, package := attrs.text .package, imports := attrs.words .imports, classes })
      | .classDecl =>
        let annotations ← list .annotations [.annot]
        let members ← list .members Kind.members
        pure (.classDecl { mods, annotations, name, fqn := attrs.text .fqn, members })
      | .method =>
        let annotations ← list .annotations [.annot]
        let params ← list .params [.varDecl]
        let body ← child .body [.block]
        pure (.method { mods, annotations, result := attrs.text .result, name, params, body })
      | .varDecl =>
        if (many .vars).isEmpty then
          attrs.refuse .noVariables
        else
          let annotations ← list .annotations [.annot]
          let vars ← list .vars [.namedVar]
          pure (.varDecl { mods, annotations, type, vars })
      | .namedVar => pure (.namedVar name (← child .init Kind.expressions))
      | .annot => pure (.annot name (← list .args Kind.arguments))
      | .block => pure (.block (← list .stmts Kind.statements))
      | .exprStmt => pure (.exprStmt (← must .x Kind.expressions))
      | .return => pure (.return (← child .x Kind.expressions))
      | .ifStmt =>
        let cond ← must .cond Kind.expressions
        let thenBranch ← must .thenBranch Kind.statements
        let elseBranch ← child .elseBranch Kind.statements
        pure (.ifStmt cond thenBranch elseBranch)
      | .assign =>
        let target ← must .lhs Kind.expressions
        let value ← must .rhs Kind.expressions
        pure (.assign (if op = "" then "=" else op) target value)
      | .literal =>
        let lit ← attrs.checkedLiteral
        pure (.literal {
          kind := lit, value := attrs.text .value, source := attrs.text .source, type })
      | .ident =>
        let field ← attrs.checkedField
        pure (.ident name type field)
      | .fieldAccess =>
        let field ← attrs.checkedField
        let x ← must .x Kind.expressions
        pure (.fieldAccess x name type field)
      | .call =>
        let recv ← child .recv Kind.expressions
        let args ← list .args Kind.expressions
        pure (.call recv name args type)
      | .new => pure (.new (attrs.text .className) (← list .args Kind.expressions))
      | .parens => pure (.parens (← must .x Kind.expressions))
      | .binary =>
        let x ← must .x Kind.expressions
        let y ← must .y Kind.expressions
        pure (.binary op x y type)
      | .unary => pure (.unary op (← must .x Kind.expressions))
    append { pos, form }

/-- Adds the nodes of a list; missing entries are dropped. -/
def addList : List (Option Wire) → List Kind → Adding (List NodeId)
  | [], _ => pure []
  | none :: rest, allowed => addList rest allowed
  | some w :: rest, allowed => do
    let id ← addNode w allowed
    return id :: (← addList rest allowed)

/-- Adds a node that may be missing; its number is then zero. -/
def addOption : Option Wire → List Kind → Adding NodeId
  | none, _ => pure 0
  | some w, allowed => addNode w allowed

end

def treeOfUnit (u : Option Wire) : Except NodeError Tree := do
  let (root, t) ← addOption u [.unit] {}
  return { t with root }

end LiteralHoist.Document
