import LiteralHoist.Document.Wire
import LiteralHoist.Source.Tree

/-!
# From trees to the wire form

A node is written with the keys that its kind uses.  Modifiers are listed in their order, and an
absent child of a list stays as a missing entry.
-/

set_option autoImplicit false

namespace LiteralHoist.Document

open LiteralHoist.Source

def wireField (f : FieldSymbol) : WireField :=
  { owner := f.owner, name := f.name, mods := f.mods.words, type := f.type }

def nodeAttributes (n : Node) : Attributes :=
  let base : Attributes := {}
  let a := ((base.setText .kind n.kind.name).setNumber .line n.pos.line).setNumber .col n.pos.col
  match n.form with
  | .unit d =>
    ((a.setText .name d.name).setText .package d.package).setWords .imports d.imports
  | .classDecl d => ((a.setWords .mods d.mods.words).setText .name d.name).setText .fqn d.fqn
  | .method d =>
    ((a.setWords .mods d.mods.words).setText .result d.result).setText .name d.name
  | .varDecl d => (a.setWords .mods d.mods.words).setText .type d.type
  | .namedVar name _ => a.setText .name name
  | .annot name _ => a.setText .name name
  | .block _ | .exprStmt _ | .return _ | .ifStmt _ _ _ | .parens _ => a
  | .assign op _ _ => a.setText .op op
  | .literal lit =>
    (((a.setText .lit lit.kind.name).setText .value lit.value).setText .source lit.source).setText
      .type lit.type
  | .ident name type field =>
    { (a.setText .name name).setText .type type with field := field.map wireField }
  | .fieldAccess _ name type field =>
    { (a.setText .name name).setText .type type with field := field.map wireField }
  | .call _ name _ type => (a.setText .name name).setText .type type
  | .new className _ => a.setText .className className
  | .binary op _ _ type => (a.setText .op op).setText .type type
  | .unary op _ => a.setText .op op

def listChildren : Form → List (ListSlot × List NodeId)
  | .unit d => [(.classes, d.classes)]
  | .classDecl d => [(.annotations, d.annotations), (.members, d.members)]
  | .method d => [(.annotations, d.annotations), (.params, d.params)]
  | .varDecl d => [(.annotations, d.annotations), (.vars, d.vars)]
  | .annot _ args => [(.args, args)]
  | .block stmts => [(.stmts, stmts)]
  | .call _ _ args _ => [(.args, args)]
  | .new _ args => [(.args, args)]
  | _ => []

def singleChildren : Form → List (Slot × NodeId)
  | .method d => [(.body, d.body)]
  | .namedVar _ init => [(.init, init)]
  | .exprStmt x => [(.x, x)]
  | .return x => [(.x, x)]
  | .ifStmt c a b => [(.cond, c), (.thenBranch, a), (.elseBranch, b)]
  | .assign _ target value => [(.lhs, target), (.rhs, value)]
  | .fieldAccess x _ _ _ => [(.x, x)]
  | .call recv _ _ _ => [(.recv, recv)]
  | .parens x => [(.x, x)]
  | .binary _ x y _ => [(.x, x), (.y, y)]
  | .unary _ x => [(.x, x)]
  | _ => []

/-- The wire form of what is below a number; nothing below zero.  The depth bounds the nesting. -/
def wireNode (t : Tree) : Nat → NodeId → Except Fault (Option Wire)
  | _, 0 => .ok none
  | 0, _ => .error .endless
  | depth + 1, id => do
    match ← t.node? id with
    | none => .error .emptyPlace
    | some n =>
      let w := Wire.empty.setAttrs (nodeAttributes n)
      let w ← (listChildren n.form).foldlM (fun w (slot, ids) => do
        return w.setMany slot (← ids.mapM (wireNode t depth))) w
      let w ← (singleChildren n.form).foldlM (fun w (slot, child) => do
        return w.setOne slot (← wireNode t depth child)) w
      return some w

def unitOfTree (t : Tree) : Except Fault (Option Wire) :=
  wireNode t (t.size + 1) t.root

end LiteralHoist.Document
