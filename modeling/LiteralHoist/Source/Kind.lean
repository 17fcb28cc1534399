import LiteralHoist.Text.Basic

/-!
# Kinds of nodes and literals

The set of node kinds is closed.  Each kind has a name, which documents use, and a number.
-/

set_option autoImplicit false

namespace LiteralHoist.Source

inductive Kind where
  | unit
  | classDecl
  | method
  | varDecl
  | namedVar
  | annot
  | block
  | exprStmt
  | return
  | ifStmt
  | assign
  | literal
  | ident
  | fieldAccess
  | call
  | new
  | parens
  | binary
  | unary
  deriving DecidableEq, Repr, Inhabited

namespace Kind

def all : List Kind :=
  [.unit, .classDecl, .method, .varDecl, .namedVar, .annot, .block, .exprStmt, .return, .ifStmt,
   .assign, .literal, .ident, .fieldAccess, .call, .new, .parens, .binary, .unary]

def name : Kind → Text
  | .unit => "unit"
  | .classDecl => "class"
  | .method => "method"
  | .varDecl => "vardecl"
  | .namedVar => "var"
  | .annot => "annotation"
  | .block => "block"
  | .exprStmt => "exprstmt"
  | .return => "return"
  | .ifStmt => "if"
  | .assign => "assign"
  | .literal => "literal"
  | .ident => "ident"
  | .fieldAccess => "fieldaccess"
  | .call => "call"
  | .new => "new"
  | .parens => "parens"
  | .binary => "binary"
  | .unary => "unary"

/-- The number of a kind; zero numbers no kind. -/
def code : Kind → Nat
  | .unit => 1
  | .classDecl => 2
  | .method => 3
  | .varDecl => 4
  | .namedVar => 5
  | .annot => 6
  | .block => 7
  | .exprStmt => 8
  | .return => 9
  | .ifStmt => 10
  | .assign => 11
  | .literal => 12
  | .ident => 13
  | .fieldAccess => 14
  | .call => 15
  | .new => 16
  | .parens => 17
  | .binary => 18
  | .unary => 19

def ofName? (s : Text) : Option Kind :=
  all.find? fun k => k.name == s

/-- What a number is called: the kind's name, `bad` for zero, or the number itself. -/
def codeText (n : Nat) : Text :=
  if n = 0 then "bad"
  else
    match all.find? fun k => k.code == n with
    | some k => k.name
    | none => "Kind(" ++ toString n ++ ")"

def expressions : List Kind :=
  [.literal, .ident, .fieldAccess, .call, .new, .parens, .binary, .unary, .assign]

def statements : List Kind :=
  [.varDecl, .block, .exprStmt, .return, .ifStmt, .classDecl]

def arguments : List Kind :=
  .annot :: expressions

def members : List Kind :=
  [.varDecl, .method, .classDecl]

def listText (ks : List Kind) : Text :=
  "[" ++ Text.intercalate " " (ks.map name) ++ "]"

end Kind

inductive LiteralKind where
  | string
  | char
  | int
  | float
  | bool
  | null
  deriving DecidableEq, Repr, Inhabited

namespace LiteralKind

def all : List LiteralKind :=
  [.string, .char, .int, .float, .bool, .null]

def name : LiteralKind → Text
  | .string => "string"
  | .char => "char"
  | .int => "int"
  | .float => "float"
  | .bool => "bool"
  | .null => "null"

def code : LiteralKind → Nat
  | .string => 0
  | .char => 1
  | .int => 2
  | .float => 3
  | .bool => 4
  | .null => 5

def ofName? (s : Text) : Option LiteralKind :=
  all.find? fun k => k.name == s

def codeText (n : Nat) : Text :=
  match all.find? fun k => k.code == n with
  | some k => k.name
  | none => "LitKind(" ++ toString n ++ ")"

end LiteralKind

end LiteralHoist.Source
