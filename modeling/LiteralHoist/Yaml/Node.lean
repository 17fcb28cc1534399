import LiteralHoist.Text.Basic

/-!
# Nodes

A document is a tree of nodes.  A node that has a name can be repeated by it.
-/

set_option autoImplicit false

namespace LiteralHoist.Yaml

def standardTags : Text := "tag:yaml.org,2002:"

inductive Node where
  | scalar (tag : Option Text) (plain : Bool) (text : Text)
  | sequence (items : List Node)
  | mapping (entries : List (Node × Node))
  /-- A node repeated by its name; the number tells which of the named nodes it is. -/
  | alias (name : Text) (number : Nat)
  deriving Repr, Inhabited

def Node.empty : Node :=
  .scalar none true ""

structure Document where
  root : Node
  named : List (Nat × Node) := []
  size : Nat := 0
  deriving Repr, Inhabited

def Document.resolve (d : Document) : Node → Node
  | .alias _ number => (d.named.lookup number).getD .empty
  | n => n

end LiteralHoist.Yaml
