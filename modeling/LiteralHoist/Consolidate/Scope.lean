import LiteralHoist.Source.Walk

/-!
# Constants and names of a class

The constants of a class are its private static final fields of the string type with a string
literal as initial value.  A name is bound in a class if a variable has it, nested classes
included, or if a simple name refers by it to a field of another class, which a constant of that
name would hide.
-/

set_option autoImplicit false

namespace LiteralHoist.Consolidate

open LiteralHoist.Source

structure Constant where
  name : Text
  value : Text
  var : NodeId
  deriving DecidableEq, Repr

def classAt (t : Tree) (id : NodeId) : Except Fault ClassDecl := do
  match ← t.classAt? id with
  | some (_, d) => return d
  | none => .error .wrongForm

def declaresConstants (d : VarDecl) : Bool :=
  d.mods.includes .constant && isStringType d.type

/-- The constant that a variable is, if its initial value is a string literal. -/
def constantOf (t : Tree) (id : NodeId) : Except Fault (List Constant) := do
  match ← t.form? id with
  | some (.namedVar name init) =>
    match ← t.form? init with
    | some (.literal lit) =>
      return if lit.isString then [⟨name, lit.value, id⟩] else []
    | _ => return []
  | _ => .error .wrongForm

def memberConstants (t : Tree) (member : NodeId) : Except Fault (List Constant) := do
  match ← t.form? member with
  | some (.varDecl d) =>
    if declaresConstants d then return (← d.vars.mapM (constantOf t)).flatten else return []
  | _ => return []

/-- The constants that are declared directly in a class, in source order; of those with the same
value only the first. -/
def constants (t : Tree) (classId : NodeId) : Except Fault (List Constant) := do
  let d ← classAt t classId
  let declared := (← d.members.mapM (memberConstants t)).flatten
  return declared.foldl
    (fun kept c => if kept.any (·.value == c.value) then kept else kept ++ [c]) []

def boundName (fqn : Text) : Option Node → Option Text
  | some ⟨_, .namedVar name _⟩ => some name
  | some ⟨_, .ident name _ (some field)⟩ => if field.owner = fqn then none else some name
  | _ => none

def boundNames (t : Tree) (classId : NodeId) : Except Fault (List Text) := do
  let fqn := (← classAt t classId).fqn
  List.reverse <$> t.walk (fun path names => do
    match boundName fqn (← t.innermost? path) with
    | some name => return (true, name :: names)
    | none => return (true, names)) classId []

/-- The names that a constant cannot have: those bound in the class, and those given to other
constants. -/
structure Scope where
  bound : List Text
  committed : List Text := []
  deriving DecidableEq, Repr

namespace Scope

def taken (s : Scope) (name : Text) : Bool :=
  s.committed.contains name || s.bound.contains name

/-- Whether a name is taken by anything but one declaration of `own`. -/
def takenByOthers (s : Scope) (own name : Text) : Bool :=
  if name = own then s.committed.contains name || 1 < s.bound.count name
  else s.taken name

def size (s : Scope) : Nat :=
  s.committed.length + s.bound.length

def commit (s : Scope) (name : Text) : Scope :=
  { s with committed := name :: s.committed }

end Scope

end LiteralHoist.Consolidate
