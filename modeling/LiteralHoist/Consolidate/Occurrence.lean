import LiteralHoist.Settings.Basic
import LiteralHoist.Source.Walk

/-!
# Occurrences of literals

A string literal counts as an occurrence of its value by where it is used: as an argument of a
call, of a constructor or of an annotation, or in the initial value of a final variable.  The
initial value of a constant does not count, since the constant is what occurrences may refer to.
Nested classes are looked at on their own.
-/

set_option autoImplicit false

namespace LiteralHoist.Consolidate

open LiteralHoist.Source

inductive Context where
  | other
  | initializer
  | constructor
  | call
  | annot
  deriving DecidableEq, Repr

namespace Context

def all : List Context :=
  [.other, .initializer, .constructor, .call, .annot]

def name : Context → Text
  | .other => "other"
  | .initializer => "initializer"
  | .constructor => "constructor"
  | .call => "call"
  | .annot => "annotation"

def codeText (n : Int) : Text :=
  if n < 0 then "Context(" ++ toString n ++ ")"
  else
    match all[n.toNat]? with
    | some c => c.name
    | none => "Context(" ++ toString n ++ ")"

end Context

def decidesContext : Option Node → Bool
  | some ⟨_, .classDecl _⟩ | some ⟨_, .annot _ _⟩ | some ⟨_, .varDecl _⟩ | some ⟨_, .new _ _⟩
  | some ⟨_, .call _ _ _ _⟩ => true
  | _ => false

def contextBelow : Option Node → Context
  | some ⟨_, .annot _ _⟩ => .annot
  | some ⟨_, .varDecl d⟩ =>
    if d.mods.includes (.ofList [.final]) && !d.mods.includes (.ofList [.priv, .static]) then
      .initializer
    else .other
  | some ⟨_, .new _ _⟩ => .constructor
  | some ⟨_, .call _ _ _ _⟩ => .call
  | _ => .other

/-- The context of the node at the start of a path: that of the nearest node that decides one. -/
def contextOf (t : Tree) (path : Path) : Except Fault Context := do
  match ← t.nearest decidesContext path with
  | none => return .other
  | some (id, _) => return contextBelow (← t.node? id)

def Context.counts (settings : Settings) : Context → Bool
  | .other => false
  | .annot => settings.countAnnotations
  | .initializer | .constructor | .call => true

def sites (t : Tree) (settings : Settings) (classId : NodeId) :
    Except Fault (List (Text × NodeId)) :=
  List.reverse <$> t.walk (fun path found => do
    match path, ← t.innermost? path with
    | id :: _, some ⟨_, .classDecl _⟩ => return (id == classId, found)
    | id :: _, some ⟨_, .literal lit⟩ =>
      if lit.isString then
        let context ← contextOf t path
        return (true, if context.counts settings then (lit.value, id) :: found else found)
      else return (true, found)
    | _, _ => return (true, found)) classId []

/-- The different texts of a list, in the order in which they first occur. -/
def distinct (values : List Text) : List Text :=
  values.foldl (fun seen v => if seen.contains v then seen else seen ++ [v]) []

structure Occurrences where
  value : Text
  sites : List NodeId
  deriving DecidableEq, Repr

def groupByValue (found : List (Text × NodeId)) : List Occurrences :=
  (distinct (found.map Prod.fst)).map fun v =>
    ⟨v, (found.filter fun site => site.1 == v).map Prod.snd⟩

/-- The least number of occurrences of a value that is consolidated, two at least. -/
def threshold (settings : Settings) : Int :=
  max 2 settings.minOccurrences

def repeated (t : Tree) (settings : Settings) (classId : NodeId) :
    Except Fault (List Occurrences) := do
  return (groupByValue (← sites t settings classId)).filter fun o =>
    threshold settings ≤ o.sites.length

end LiteralHoist.Consolidate
