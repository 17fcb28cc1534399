import LiteralHoist.Source.Tree

/-!
# Walks

A walk visits the nodes below a root in depth-first order, a node before its children.  A visitor
sees the path from the node up to the root, innermost first, and says whether to go on to the
node's children.  What a visitor has gathered is threaded from visit to visit.

The path is the end of a buffer that all visits share.  It grows into the free cells before it; when
none is left, a larger buffer takes the place of the full one and the path is moved to its end.
-/

set_option autoImplicit false

namespace LiteralHoist.Source

/-- The numbers from a node up to the root of a walk, innermost first. -/
abbrev Path := List NodeId

abbrev Visitor (σ : Type) := Path → σ → Except Fault (Bool × σ)

structure Growth where
  cells : Nat → Nat
  enough : ∀ n, n < cells n

def Growth.doubling : Growth where
  cells n := max 1 (2 * n)
  enough n := by omega

/-- The buffer of a walk.  The cells from `start` on hold a path, and those before it anything. -/
structure Trail where
  cells : List NodeId := []
  start : Nat := 0
  deriving DecidableEq, Repr

namespace Trail

def path (s : Trail) : Path :=
  s.cells.drop s.start

/-- Copies the first `count` cells to the places from `target` on.  What arrives there is what stood
in these cells before, also where the places overlap with them. -/
def copyFirst (count target : Nat) (cells : List NodeId) : List NodeId :=
  cells.take target ++ cells.take count ++ cells.drop (target + count)

def grown (growth : Growth) (s : Trail) : Trail :=
  if s.start = 0 then
    let old := s.cells.length
    let cells := s.cells ++ List.replicate (growth.cells old - old) 0
    { cells := copyFirst old (cells.length - old) cells, start := cells.length - old }
  else s

def push (growth : Growth) (s : Trail) (id : NodeId) : Trail :=
  let s := s.grown growth
  { cells := s.cells.set (s.start - 1) id, start := s.start - 1 }

def pop (s : Trail) : Trail :=
  { s with start := s.start + 1 }

end Trail

namespace Tree

/-- Visits a node below the path of the trail, then its children if the visitor asks for it.  No
path of a tree without cycles is longer than the tree, which bounds the depth. -/
def visit {σ : Type} (t : Tree) (growth : Growth) (visitor : Visitor σ) :
    Nat → Trail × σ → NodeId → Except Fault (Trail × σ)
  | 0, _, _ => .error .endless
  | depth + 1, (trail, gathered), id => do
    let trail := trail.push growth id
    let (descend, gathered) ← visitor trail.path gathered
    let (trail, gathered) ←
      if descend then
        (← t.children id).foldlM (t.visit growth visitor depth) (trail, gathered)
      else pure (trail, gathered)
    return (trail.pop, gathered)

/-- Walks the tree below a root; nothing is visited below no node.  All cells have to be free
again at the end. -/
def walkGrowing {σ : Type} (t : Tree) (growth : Growth) (visitor : Visitor σ) (root : NodeId)
    (start : σ) : Except Fault σ := do
  let (trail, gathered) ←
    if root = 0 then pure ({}, start)
    else t.visit growth visitor (t.size + 1) ({}, start) root
  if trail.start = trail.cells.length then return gathered else .error .unbalanced

def walk {σ : Type} (t : Tree) (visitor : Visitor σ) (root : NodeId) (start : σ) :
    Except Fault σ :=
  t.walkGrowing .doubling visitor root start

def innermost? (t : Tree) : Path → Except Fault (Option Node)
  | [] => .ok none
  | id :: _ => t.node? id

def paths (t : Tree) (enters : Option Node → Bool) (root : NodeId) :
    Except Fault (List Path) :=
  List.reverse <$> t.walk (fun path gathered => do
    return (enters (← t.innermost? path), path :: gathered)) root []

def firstAccepted (t : Tree) (accepts : Option Node → Bool) :
    Nat → List NodeId → Except Fault (Option (NodeId × Nat))
  | _, [] => .ok none
  | index, id :: rest => do
    if accepts (← t.node? id) then return some (id, index)
    else t.firstAccepted accepts (index + 1) rest

def nearest (t : Tree) (accepts : Option Node → Bool) (path : Path) :
    Except Fault (Option (NodeId × Nat)) :=
  t.firstAccepted accepts 1 path.tail

def classes (t : Tree) (root : NodeId) : Except Fault (List NodeId) :=
  List.reverse <$> t.walk (fun path gathered => do
    match path, ← t.innermost? path with
    | id :: _, some ⟨_, .classDecl _⟩ => return (true, id :: gathered)
    | _, _ => return (true, gathered)) root []

def usesType (t : Tree) (accepts : Text → Bool) (root : NodeId) : Except Fault Bool :=
  t.walk (fun path found => do
    if found then return (false, true)
    else
      match ← t.innermost? path with
      | none => return (true, false)
      | some n =>
        let type := n.form.mentionedType
        let found := type ≠ "" && accepts type
        return (!found, found)) root false

end Tree

end LiteralHoist.Source
