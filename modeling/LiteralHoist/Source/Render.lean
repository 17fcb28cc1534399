import LiteralHoist.Source.Tree

/-!
# Source text

A tree is shown as source text for review and for diffs, indented by four blanks.  The layout of
the parsed file is not kept, but literals are shown as they were written.

Expressions stand on one line.  A statement is shown with its indentation and a line end; a block
inside a statement starts on the line of the statement.
-/

set_option autoImplicit false

namespace LiteralHoist.Source

def indentation (level : Nat) : Text :=
  Text.ofChars (List.replicate (4 * level) ' ')

def leadingMods (mods : Modifiers) : Text :=
  if mods = .none then "" else mods.text ++ " "

def commaList (texts : List Text) : Text :=
  Text.intercalate ", " texts

namespace Tree

/-- The text of an expression or annotation.  The depth bounds the nesting of expressions. -/
def exprText (t : Tree) : Nat → NodeId → Except Fault Text
  | 0, _ => .error .endless
  | depth + 1, id => do
    match ← t.form? id with
    | none => .error .noExpression
    | some (.literal lit) => return lit.text
    | some (.ident name _ _) => return name
    | some (.fieldAccess x name _ _) => return (← t.exprText depth x) ++ "." ++ name
    | some (.call recv name args _) =>
      let receiver : Text ← if recv = 0 then pure "" else pure ((← t.exprText depth recv) ++ ".")
      return receiver ++ name ++ "(" ++ commaList (← args.mapM (t.exprText depth)) ++ ")"
    | some (.new className args) =>
      return "new " ++ className ++ "(" ++ commaList (← args.mapM (t.exprText depth)) ++ ")"
    | some (.parens x) => return "(" ++ (← t.exprText depth x) ++ ")"
    | some (.binary op x y _) =>
      let left ← t.exprText depth x
      return left ++ " " ++ op ++ " " ++ (← t.exprText depth y)
    | some (.unary op x) => return op ++ (← t.exprText depth x)
    | some (.assign op target value) =>
      let left ← t.exprText depth target
      return left ++ " " ++ op ++ " " ++ (← t.exprText depth value)
    | some (.annot name args) =>
      if args.isEmpty then return "@" ++ name
      else return "@" ++ name ++ "(" ++ commaList (← args.mapM (t.exprText depth)) ++ ")"
    | some f => .error (.notExpression f.kind)

def expr (t : Tree) (id : NodeId) : Except Fault Text :=
  t.exprText (t.size + 1) id

def initializedName (t : Tree) (name : Text) (init : NodeId) : Except Fault Text := do
  if init = 0 then return name else return name ++ " = " ++ (← t.expr init)

def namedVariable (t : Tree) (id : NodeId) : Except Fault Text := do
  match ← t.form? id with
  | some (.namedVar name init) => t.initializedName name init
  | _ => .error .wrongForm

def declaration (t : Tree) (d : VarDecl) : Except Fault Text := do
  return leadingMods d.mods ++ d.type ++ " " ++ commaList (← d.vars.mapM t.namedVariable)

def parameter (t : Tree) (id : NodeId) : Except Fault Text := do
  match ← t.form? id with
  | some (.varDecl d) =>
    let annotations ← d.annotations.mapM t.expr
    return Text.join (annotations.map (· ++ " ")) ++ (← t.declaration d)
  | _ => .error .wrongForm

def annotationLines (t : Tree) (level : Nat) (ids : List NodeId) : Except Fault Text := do
  return Text.join
    ((← ids.mapM t.expr).map fun text => indentation level ++ text ++ "\n")

/-- What is known of statements one nesting level further down: their text at a level. -/
abbrev StatementText := Nat → NodeId → Except Fault Text

def braces (inner : StatementText) (level : Nat) (stmts : List NodeId) :
    Except Fault Text := do
  return "\x7b\n" ++ Text.join (← stmts.mapM (inner (level + 1))) ++ indentation level ++ "\x7d"

def bodyText (t : Tree) (inner : StatementText) (level : Nat) (id : NodeId) :
    Except Fault Text := do
  match ← t.form? id with
  | some (.block stmts) => braces inner level stmts
  | _ => .error .wrongForm

/-- A branch of a conditional statement; a branch that is no block gets braces. -/
def branchText (t : Tree) (inner : StatementText) (level : Nat) (id : NodeId) :
    Except Fault Text := do
  match ← t.form? id with
  | some (.block stmts) => braces inner level stmts
  | _ => braces inner level [id]

def classText (t : Tree) (inner : StatementText) (level : Nat) (d : ClassDecl) :
    Except Fault Text := do
  let annotations ← t.annotationLines level d.annotations
  return annotations ++ indentation level ++ leadingMods d.mods ++ "class " ++ d.name ++ " " ++
    (← braces inner level d.members) ++ "\n"

def methodText (t : Tree) (inner : StatementText) (level : Nat) (d : MethodDecl) :
    Except Fault Text := do
  let annotations ← t.annotationLines level d.annotations
  let result : Text := if d.result = "" then "" else d.result ++ " "
  let params ← d.params.mapM t.parameter
  let body : Text ← if d.body = 0 then pure ";" else pure (" " ++ (← t.bodyText inner level d.body))
  return annotations ++ indentation level ++ leadingMods d.mods ++ result ++ d.name ++ "(" ++
    commaList params ++ ")" ++ body ++ "\n"

mutual

def statementText (t : Tree) : Nat → Nat → NodeId → Except Fault Text
  | 0, _, _ => .error .endless
  | depth + 1, level, id => do
    let indent := indentation level
    match ← t.form? id with
    | some (.block stmts) => return indent ++ (← braces (t.statementText depth) level stmts) ++ "\n"
    | some (.exprStmt x) => return indent ++ (← t.expr x) ++ ";\n"
    | some (.return x) =>
      if x = 0 then return indent ++ "return;\n"
      else return indent ++ "return " ++ (← t.expr x) ++ ";\n"
    | some (.varDecl d) =>
      let annotations ← t.annotationLines level d.annotations
      return annotations ++ indent ++ (← t.declaration d) ++ ";\n"
    | some (.ifStmt c a b) =>
      return indent ++ (← t.conditionalText depth level c a b) ++ "\n"
    | some (.classDecl d) => t.classText (t.statementText depth) level d
    | some (.method d) => t.methodText (t.statementText depth) level d
    | _ => return indent ++ (← t.expr id) ++ ";\n"

/-- A conditional statement; one in the place of the other branch continues the line. -/
def conditionalText (t : Tree) : Nat → Nat → NodeId → NodeId → NodeId → Except Fault Text
  | 0, _, _, _, _ => .error .endless
  | depth + 1, level, cond, thenBranch, elseBranch => do
    let head ← t.expr cond
    let taken ← t.branchText (t.statementText depth) level thenBranch
    let other : Text ←
      if elseBranch = 0 then pure ""
      else
        match ← t.form? elseBranch with
        | some (.ifStmt c a b) => pure (" else " ++ (← t.conditionalText depth level c a b))
        | _ => pure (" else " ++ (← t.branchText (t.statementText depth) level elseBranch))
    return "if (" ++ head ++ ") " ++ taken ++ other

end

def statement (t : Tree) : StatementText :=
  t.statementText (2 * t.size + 2)

def unitClass (t : Tree) (id : NodeId) : Except Fault Text := do
  match ← t.form? id with
  | some (.classDecl d) => t.classText t.statement 0 d
  | _ => .error .wrongForm

def unitText (t : Tree) (d : UnitDecl) : Except Fault Text := do
  let package : Text := if d.package = "" then "" else "package " ++ d.package ++ ";\n\n"
  let imports := Text.join (d.imports.map fun name => "import " ++ name ++ ";\n")
  let gap : Text := if d.imports.isEmpty then "" else "\n"
  return package ++ imports ++ gap ++ Text.intercalate "\n" (← d.classes.mapM t.unitClass)

def render (t : Tree) (id : NodeId) : Except Fault Text := do
  match ← t.form? id with
  | some (.unit d) => t.unitText d
  | some (.namedVar name init) => t.initializedName name init
  | some (.classDecl _) | some (.method _) | some (.varDecl _) | some (.block _)
  | some (.exprStmt _) | some (.return _) | some (.ifStmt _ _ _) => t.statement 0 id
  | _ => t.expr id

end Tree

end LiteralHoist.Source
