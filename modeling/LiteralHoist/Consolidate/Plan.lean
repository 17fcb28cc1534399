import LiteralHoist.Consolidate.Name
import LiteralHoist.Consolidate.Occurrence
import LiteralHoist.Consolidate.Scope

/-!
# Plans

A plan says, for each repeated value of a class, which constant its occurrences will refer to: an
existing one, kept or renamed, or a new one.  Values are planned in the order in which they first
occur, and a name given to one is not available to the later ones.  A value for which no name can
be found is skipped.
-/

set_option autoImplicit false

namespace LiteralHoist.Consolidate

open LiteralHoist.Source

inductive Action where
  | insert
  | reuse
  | rename
  | unknown (code : Int)
  deriving DecidableEq, Repr

namespace Action

def ofCode (n : Int) : Action :=
  if n = 0 then .insert else if n = 1 then .reuse else if n = 2 then .rename else .unknown n

def name : Action → Text
  | .insert => "insert"
  | .reuse => "reuse"
  | .rename => "rename"
  | .unknown code => "Action(" ++ toString code ++ ")"

end Action

structure Group where
  value : Text
  sites : List NodeId
  action : Action
  /-- The name of the constant after the plan is carried out. -/
  name : Text
  /-- The name of the existing constant, or empty. -/
  oldName : Text := ""
  var : NodeId := 0
  deriving DecidableEq, Repr

/-- A value that is left alone because no name can be made for it. -/
structure Skip where
  value : Text
  sites : List NodeId
  deriving DecidableEq, Repr

def Skip.reason : Text := "no constant name can be derived from value"

structure Plan where
  classId : NodeId
  fqn : Text
  groups : List Group := []
  skipped : List Skip := []
  deriving DecidableEq, Repr

def Plan.isEmpty (p : Plan) : Bool :=
  p.groups.isEmpty

/-- A class that cannot be planned because its type was not resolved. -/
structure Unresolved where
  pos : Position
  className : Text
  deriving DecidableEq, Repr

def Unresolved.message (e : Unresolved) : Text :=
  "class " ++ e.className ++ ": type not resolved"

/-- The name for a value that has a constant already, made from the constant's name. -/
def nameForConstant (settings : Settings) (scope : Scope) (c : Constant) : Option Text :=
  (freeName c.name (scope.takenByOthers c.name) scope.size settings.maxSuffix).found

def nameForValue (settings : Settings) (scope : Scope) (value : Text) : Option Text :=
  (freeName value scope.taken scope.size settings.maxSuffix).found

/-- The plan for the occurrences of a value, or none if no name can be found. -/
def planGroup (settings : Settings) (existing : List Constant) (scope : Scope)
    (o : Occurrences) : Option Group :=
  match existing.find? (·.value == o.value) with
  | some c => do
    let name ← nameForConstant settings scope c
    return {
      value := o.value, sites := o.sites, name, oldName := c.name, var := c.var
      action := if name = c.name then .reuse else .rename }
  | none => do
    let name ← nameForValue settings scope o.value
    return { value := o.value, sites := o.sites, action := .insert, name }

def planGroups (settings : Settings) (existing : List Constant) :
    Scope → List Occurrences → List Group × List Skip
  | _, [] => ([], [])
  | scope, o :: rest =>
    match planGroup settings existing scope o with
    | some g =>
      let (groups, skipped) := planGroups settings existing (scope.commit g.name) rest
      (g :: groups, skipped)
    | none =>
      let (groups, skipped) := planGroups settings existing scope rest
      (groups, ⟨o.value, o.sites⟩ :: skipped)

def planClass (t : Tree) (settings : Settings) (classId : NodeId) :
    Except Fault (Except Unresolved Plan) := do
  match ← t.classAt? classId with
  | none => .error (.notClass classId)
  | some (pos, d) =>
    if d.fqn = "" then return .error ⟨pos, d.name⟩
    else
      let found ← repeated t settings classId
      if found.isEmpty then return .ok { classId, fqn := d.fqn }
      else
        let existing ← constants t classId
        let bound ← boundNames t classId
        let (groups, skipped) := planGroups settings existing { bound } found
        return .ok { classId, fqn := d.fqn, groups, skipped }

end LiteralHoist.Consolidate
