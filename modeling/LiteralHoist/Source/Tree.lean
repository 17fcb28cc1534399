import LiteralHoist.Source.Node

/-!
# Trees

A tree keeps the nodes of one source file in a table and addresses them by number.  Overwriting a
place changes the node for everything that refers to it, which is how expressions are replaced.
A place may be empty.
-/

set_option autoImplicit false

namespace LiteralHoist.Source

structure Tree where
  root : NodeId := 0
  nodes : Array (Option Node) := #[]
  deriving DecidableEq, Repr, Inhabited

namespace Tree

def size (t : Tree) : Nat :=
  t.nodes.size

/-- What stands at a number: nothing at zero, and a fault beyond the last place. -/
def node? (t : Tree) (id : NodeId) : Except Fault (Option Node) :=
  if id = 0 then .ok none
  else
    match t.nodes[id - 1]? with
    | some entry => .ok entry
    | none => .error (.dangling id)

def form? (t : Tree) (id : NodeId) : Except Fault (Option Form) :=
  (t.node? id).map fun entry => entry.map Node.form

def push (t : Tree) (n : Node) : Tree × NodeId :=
  ({ t with nodes := t.nodes.push (some n) }, t.size + 1)

def pushForm (t : Tree) (f : Form) : Tree × NodeId :=
  t.push { form := f }

def add (t : Tree) : Option Node → Except Fault (Tree × NodeId)
  | some n => .ok (t.push n)
  | none => .error .nothingToAdd

def set (t : Tree) (id : NodeId) (entry : Option Node) : Except Fault Tree :=
  if id = 0 ∨ t.size < id then .error (.invalidPlace id)
  else .ok { t with nodes := t.nodes.setIfInBounds (id - 1) entry }

def children (t : Tree) (id : NodeId) : Except Fault (List NodeId) := do
  match ← t.form? id with
  | none => return []
  | some f => return f.children

def classAt? (t : Tree) (id : NodeId) : Except Fault (Option (Position × ClassDecl)) := do
  match ← t.node? id with
  | some ⟨pos, .classDecl d⟩ => return some (pos, d)
  | _ => return none

def unit? (t : Tree) : Except Fault (Option (Position × UnitDecl)) := do
  match ← t.node? t.root with
  | some ⟨pos, .unit d⟩ => return some (pos, d)
  | _ => return none

end Tree

end LiteralHoist.Source
