import LiteralHoist.Consolidate.Plan

/-!
# Carrying out plans

A plan is carried out in two phases.  First every reference to a constant that is renamed is
located, while the tree is unchanged.  Then constants are renamed, new constants are put at the top
of the class in the order of the plan, and the occurrences become references.
-/

set_option autoImplicit false

namespace LiteralHoist.Consolidate

open LiteralHoist.Source

structure Stats where
  inserted : Nat := 0
  reused : Nat := 0
  renamed : Nat := 0
  refs : Nat := 0
  replaced : Nat := 0
  deriving DecidableEq, Repr, Inhabited

namespace Stats

def add (a b : Stats) : Stats where
  inserted := a.inserted + b.inserted
  reused := a.reused + b.reused
  renamed := a.renamed + b.renamed
  refs := a.refs + b.refs
  replaced := a.replaced + b.replaced

def changed (s : Stats) : Bool :=
  0 < s.replaced || 0 < s.renamed

end Stats

structure Renaming where
  name : Text
  var : NodeId
  refs : List NodeId
  deriving DecidableEq, Repr

def refersTo (fqn name : Text) : Option Node → Bool
  | some ⟨_, .ident _ _ (some field)⟩ => field.owner == fqn && field.name == name
  | some ⟨_, .fieldAccess _ _ _ (some field)⟩ => field.owner == fqn && field.name == name
  | _ => false

/-- The references in a class to its field of a name, nested classes included. -/
def references (t : Tree) (classId : NodeId) (fqn name : Text) : Except Fault (List NodeId) :=
  List.reverse <$> t.walk (fun path found => do
    match path with
    | [] => return (true, found)
    | id :: _ =>
      return (true, if refersTo fqn name (← t.node? id) then id :: found else found)) classId []

def renamingOf (t : Tree) (p : Plan) (g : Group) : Except Fault (List Renaming) := do
  match g.action with
  | .insert | .reuse => return []
  | .rename => return [⟨g.name, g.var, ← references t p.classId p.fqn g.oldName⟩]
  | .unknown code => .error (.unknownAction code)

def renamedForm (name : Text) : Form → Form
  | .ident _ type field =>
    .ident name type (field.map fun f => { f with name })
  | .fieldAccess x _ type field =>
    .fieldAccess x name type (field.map fun f => { f with name })
  | f => f

def renameReference (name : Text) (t : Tree) (id : NodeId) : Except Fault Tree := do
  match ← t.node? id with
  | some n => t.set id (some { n with form := renamedForm name n.form })
  | none => return t

def renameVar (t : Tree) (id : NodeId) (name : Text) : Except Fault Tree := do
  match ← t.node? id with
  | some ⟨pos, .namedVar _ init⟩ => t.set id (some ⟨pos, .namedVar name init⟩)
  | _ => .error .wrongForm

def carryOutRenaming (t : Tree) (r : Renaming) : Except Fault Tree := do
  let t ← renameVar t r.var r.name
  r.refs.foldlM (renameReference r.name) t

def literalAt (t : Tree) (id : NodeId) : Except Fault (Position × Literal) := do
  match ← t.node? id with
  | some ⟨pos, .literal lit⟩ => return (pos, lit)
  | _ => .error .wrongForm

def declareConstant (t : Tree) (name : Text) (lit : Literal) : Tree × NodeId :=
  let (t, init) := t.pushForm (.literal lit)
  let (t, v) := t.pushForm (.namedVar name init)
  t.pushForm (.varDecl { mods := .constant, type := lit.type, vars := [v] })

/-- Replaces a literal by a reference to the constant of a name.  The type of the constant is that
of the first literal replaced, unless it is known. -/
def replaceSite (fqn name : Text) (state : Tree × Text) (id : NodeId) :
    Except Fault (Tree × Text) := do
  let (t, type) := state
  let (pos, lit) ← literalAt t id
  let type := if type = "" then lit.type else type
  let field : FieldSymbol := { owner := fqn, name, mods := .constant, type }
  return (← t.set id (some ⟨pos, .ident name lit.type (some field)⟩), type)

def firstLiteral (t : Tree) (g : Group) : Except Fault Literal := do
  match g.sites with
  | [] => .error .wrongForm
  | id :: _ => return (← literalAt t id).2

/-- Carries out the part of a group that is no renaming: gives the tree and the declaration of a
new constant. -/
def carryOutGroup (fqn : Text) (t : Tree) (g : Group) : Except Fault (Tree × List NodeId) := do
  match g.action with
  | .insert =>
    let lit ← firstLiteral t g
    let (t, decl) := declareConstant t g.name lit
    let (t, _) ← g.sites.foldlM (replaceSite fqn g.name) (t, lit.type)
    return (t, [decl])
  | _ =>
    let (t, _) ← g.sites.foldlM (replaceSite fqn g.name) (t, "")
    return (t, [])

def carryOutGroups (fqn : Text) : Tree → List Group → Except Fault (Tree × List NodeId)
  | t, [] => .ok (t, [])
  | t, g :: rest => do
    let (t, decls) ← carryOutGroup fqn t g
    let (t, more) ← carryOutGroups fqn t rest
    return (t, decls ++ more)

def prependMembers (t : Tree) (classId : NodeId) (decls : List NodeId) : Except Fault Tree := do
  match ← t.node? classId with
  | some ⟨pos, .classDecl d⟩ =>
    t.set classId (some ⟨pos, .classDecl { d with members := decls ++ d.members }⟩)
  | _ => .error .wrongForm

def countAction (action : Action) (groups : List Group) : Nat :=
  (groups.filter (·.action == action)).length

def total : List Nat → Nat
  | [] => 0
  | n :: rest => n + total rest

def statsOf (groups : List Group) (renamings : List Renaming) : Stats where
  inserted := countAction .insert groups
  reused := countAction .reuse groups
  renamed := renamings.length
  refs := total (renamings.map (·.refs.length))
  replaced := total (groups.map (·.sites.length))

def applyPlan (t : Tree) (p : Plan) : Except Fault (Tree × Stats) := do
  if p.isEmpty then return (t, {})
  else
    let _ ← classAt t p.classId
    let renamings := (← p.groups.mapM (renamingOf t p)).flatten
    let t ← renamings.foldlM carryOutRenaming t
    let (t, decls) ← carryOutGroups p.fqn t p.groups
    let t ← if decls.isEmpty then pure t else prependMembers t p.classId decls
    return (t, statsOf p.groups renamings)

end LiteralHoist.Consolidate
