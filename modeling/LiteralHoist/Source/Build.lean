import LiteralHoist.Source.Tree

/-!
# Building trees

Trees are built from the leaves up: each operation appends a node, together with the nodes that it
implies, and gives the number of the node.  Child numbers are not checked.
-/

set_option autoImplicit false

namespace LiteralHoist.Source.Tree

def addUnit (t : Tree) (name : Text) (classes : List NodeId) : Tree × NodeId :=
  let (t, id) := t.pushForm (.unit { name, classes })
  ({ t with root := id }, id)

def addClass (t : Tree) (mods : Modifiers) (name fqn : Text) (members : List NodeId) :
    Tree × NodeId :=
  t.pushForm (.classDecl { mods, name, fqn, members })

def addVar (t : Tree) (mods : Modifiers) (type name : Text) (init : NodeId) : Tree × NodeId :=
  let (t, v) := t.pushForm (.namedVar name init)
  t.pushForm (.varDecl { mods, type, vars := [v] })

def addParam (t : Tree) (type name : Text) : Tree × NodeId :=
  t.addVar .none type name 0

def addBlock (t : Tree) (stmts : List NodeId) : Tree × NodeId :=
  t.pushForm (.block stmts)

/-- Appends a block of statements and the method that has it as body. -/
def addMethod (t : Tree) (mods : Modifiers) (result name : Text) (params stmts : List NodeId) :
    Tree × NodeId :=
  let (t, body) := t.addBlock stmts
  t.pushForm (.method { mods, result, name, params, body })

def addAnnot (t : Tree) (name : Text) (args : List NodeId) : Tree × NodeId :=
  t.pushForm (.annot name args)

/-- The form with more annotations, for the declarations that take some. -/
def annotatedForm (f : Form) (more : List NodeId) : Except Fault Form :=
  match f with
  | .classDecl d => .ok (.classDecl { d with annotations := d.annotations ++ more })
  | .method d => .ok (.method { d with annotations := d.annotations ++ more })
  | .varDecl d => .ok (.varDecl { d with annotations := d.annotations ++ more })
  | f => .error (.notAnnotatable f.kind)

def annotate (t : Tree) (id : NodeId) (more : List NodeId) : Except Fault Tree := do
  match ← t.node? id with
  | none => .error .emptyPlace
  | some n => t.set id (some { n with form := ← annotatedForm n.form more })

def addExprStmt (t : Tree) (x : NodeId) : Tree × NodeId :=
  t.pushForm (.exprStmt x)

def addReturn (t : Tree) (x : NodeId) : Tree × NodeId :=
  t.pushForm (.return x)

def addIf (t : Tree) (cond thenBranch elseBranch : NodeId) : Tree × NodeId :=
  t.pushForm (.ifStmt cond thenBranch elseBranch)

def addAssign (t : Tree) (target value : NodeId) : Tree × NodeId :=
  t.pushForm (.assign "=" target value)

def addString (t : Tree) (s : Text) : Tree × NodeId :=
  t.pushForm (.literal { kind := .string, value := s, source := stringLiteral s, type := "String" })

def addInt (t : Tree) (digits : Text) : Tree × NodeId :=
  t.pushForm (.literal { kind := .int, value := digits, source := digits, type := "int" })

def addBool (t : Tree) (b : Bool) : Tree × NodeId :=
  let word := if b then "true" else "false"
  t.pushForm (.literal { kind := .bool, value := word, source := word, type := "boolean" })

/-- Appends a null, whose type is that of its target. -/
def addNull (t : Tree) (type : Text) : Tree × NodeId :=
  t.pushForm (.literal { kind := .null, source := "null", type })

def addIdent (t : Tree) (name : Text) : Tree × NodeId :=
  t.pushForm (.ident name "" none)

def addFieldRef (t : Tree) (field : FieldSymbol) : Tree × NodeId :=
  t.pushForm (.ident field.name field.type (some field))

def addSelect (t : Tree) (x : NodeId) (field : FieldSymbol) : Tree × NodeId :=
  t.pushForm (.fieldAccess x field.name field.type (some field))

def addCall (t : Tree) (recv : NodeId) (name : Text) (args : List NodeId) : Tree × NodeId :=
  t.pushForm (.call recv name args "")

def addNew (t : Tree) (className : Text) (args : List NodeId) : Tree × NodeId :=
  t.pushForm (.new className args)

def addParens (t : Tree) (x : NodeId) : Tree × NodeId :=
  t.pushForm (.parens x)

def addBinary (t : Tree) (op : Text) (x y : NodeId) : Tree × NodeId :=
  t.pushForm (.binary op x y "")

def addUnary (t : Tree) (op : Text) (x : NodeId) : Tree × NodeId :=
  t.pushForm (.unary op x)

end LiteralHoist.Source.Tree
