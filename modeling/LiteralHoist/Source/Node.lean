import LiteralHoist.Source.Fault
import LiteralHoist.Source.Literal
import LiteralHoist.Source.Modifiers
import LiteralHoist.Source.Position

/-!
# Nodes

A node has a position and a form.  Forms refer to other nodes by number; number zero refers to no
node, so a form with an optional child holds zero when the child is absent.
-/

set_option autoImplicit false

namespace LiteralHoist.Source

/-- The number of a node in its tree, counted from one; zero is no node. -/
abbrev NodeId := Nat

structure FieldSymbol where
  /-- The full name of the class that declares the field. -/
  owner : Text := ""
  name : Text := ""
  mods : Modifiers := {}
  type : Text := ""
  deriving DecidableEq, Repr, Inhabited

structure UnitDecl where
  name : Text := ""
  package : Text := ""
  imports : List Text := []
  classes : List NodeId := []
  deriving DecidableEq, Repr, Inhabited

/-- A class.  Its full name is empty if its type could not be resolved. -/
structure ClassDecl where
  mods : Modifiers := {}
  annotations : List NodeId := []
  name : Text := ""
  fqn : Text := ""
  members : List NodeId := []
  deriving DecidableEq, Repr, Inhabited

/-- A method, or a constructor if its result is empty.  An abstract method has no body. -/
structure MethodDecl where
  mods : Modifiers := {}
  annotations : List NodeId := []
  result : Text := ""
  name : Text := ""
  params : List NodeId := []
  body : NodeId := 0
  deriving DecidableEq, Repr, Inhabited

structure VarDecl where
  mods : Modifiers := {}
  annotations : List NodeId := []
  type : Text := ""
  vars : List NodeId := []
  deriving DecidableEq, Repr, Inhabited

inductive Form where
  | unit (decl : UnitDecl)
  | classDecl (decl : ClassDecl)
  | method (decl : MethodDecl)
  | varDecl (decl : VarDecl)
  | namedVar (name : Text) (init : NodeId)
  | annot (name : Text) (args : List NodeId)
  | block (stmts : List NodeId)
  | exprStmt (x : NodeId)
  | return (x : NodeId)
  | ifStmt (cond thenBranch elseBranch : NodeId)
  | assign (op : Text) (target value : NodeId)
  | literal (lit : Literal)
  | ident (name type : Text) (field : Option FieldSymbol)
  | fieldAccess (x : NodeId) (name type : Text) (field : Option FieldSymbol)
  | call (recv : NodeId) (name : Text) (args : List NodeId) (type : Text)
  | new (className : Text) (args : List NodeId)
  | parens (x : NodeId)
  | binary (op : Text) (x y : NodeId) (type : Text)
  | unary (op : Text) (x : NodeId)
  deriving DecidableEq, Repr, Inhabited

structure Node where
  pos : Position := {}
  form : Form
  deriving DecidableEq, Repr, Inhabited

namespace Form

def kind : Form → Kind
  | .unit _ => .unit
  | .classDecl _ => .classDecl
  | .method _ => .method
  | .varDecl _ => .varDecl
  | .namedVar _ _ => .namedVar
  | .annot _ _ => .annot
  | .block _ => .block
  | .exprStmt _ => .exprStmt
  | .return _ => .return
  | .ifStmt _ _ _ => .ifStmt
  | .assign _ _ _ => .assign
  | .literal _ => .literal
  | .ident _ _ _ => .ident
  | .fieldAccess _ _ _ _ => .fieldAccess
  | .call _ _ _ _ => .call
  | .new _ _ => .new
  | .parens _ => .parens
  | .binary _ _ _ _ => .binary
  | .unary _ _ => .unary

/-- The numbers in the child places of a form, in source order, zeros included. -/
def places : Form → List NodeId
  | .unit d => d.classes
  | .classDecl d => d.annotations ++ d.members
  | .method d => d.annotations ++ d.params ++ [d.body]
  | .varDecl d => d.annotations ++ d.vars
  | .namedVar _ init => [init]
  | .annot _ args => args
  | .block stmts => stmts
  | .exprStmt x => [x]
  | .return x => [x]
  | .ifStmt c a b => [c, a, b]
  | .assign _ target value => [target, value]
  | .literal _ => []
  | .ident _ _ _ => []
  | .fieldAccess x _ _ _ => [x]
  | .call recv _ args _ => recv :: args
  | .new _ args => args
  | .parens x => [x]
  | .binary _ x y _ => [x, y]
  | .unary _ x => [x]

def children (f : Form) : List NodeId :=
  f.places.filter (· ≠ 0)

def mentionedType : Form → Text
  | .method d => d.result
  | .varDecl d => d.type
  | .literal lit => lit.type
  | .ident _ type _ => type
  | .fieldAccess _ _ type _ => type
  | .call _ _ _ type => type
  | .new className _ => className
  | .binary _ _ _ type => type
  | _ => ""

end Form

def Node.kind (n : Node) : Kind :=
  n.form.kind

end LiteralHoist.Source
