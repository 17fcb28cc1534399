import LiteralHoist.Document.Wire

/-!
# Drafts

While a document is read, a key may come again, and its value is then read over what the earlier
ones left.  A list that becomes shorter keeps the entries beyond its new end in the background: if
the key comes once more with a longer list, the entries of that list are read over those again.

A draft is a node of the wire form together with these entries in the background.  Once everything
is read they are dropped.
-/

set_option autoImplicit false

namespace LiteralHoist.Document

/-- Words of a node that are in the background. -/
structure PastWords where
  words : WordsKey → List Text := fun _ => []
  /-- The modifiers of the field symbol. -/
  fieldMods : List Text := []

def PastWords.set (p : PastWords) (key : WordsKey) (ws : List Text) : PastWords :=
  { p with words := fun k => if k = key then ws else p.words k }

inductive Draft where
  | node (attrs : Attributes) (pastWords : PastWords) (many past : ListSlot → List (Option Draft))
    (one : Slot → Option Draft)

namespace Draft

def empty : Draft :=
  .node {} {} (fun _ => []) (fun _ => []) (fun _ => none)

def attrs : Draft → Attributes
  | .node a _ _ _ _ => a

def pastWords : Draft → PastWords
  | .node _ p _ _ _ => p

def many : Draft → ListSlot → List (Option Draft)
  | .node _ _ m _ _ => m

def past : Draft → ListSlot → List (Option Draft)
  | .node _ _ _ p _ => p

def one : Draft → Slot → Option Draft
  | .node _ _ _ _ o => o

def setAttrs (d : Draft) (a : Attributes) (p : PastWords) : Draft :=
  .node a p d.many d.past d.one

/-- The draft with another list of nodes, and others in its background. -/
def setMany (d : Draft) (slot : ListSlot) (list : List (Option Draft) × List (Option Draft)) :
    Draft :=
  .node d.attrs d.pastWords (fun s => if s = slot then list.1 else d.many s)
    (fun s => if s = slot then list.2 else d.past s) d.one

def setOne (d : Draft) (slot : Slot) (child : Option Draft) : Draft :=
  .node d.attrs d.pastWords d.many d.past (fun s => if s = slot then child else d.one s)

mutual

def finish : Draft → Wire
  | .node attrs _ many _ one =>
    .node attrs (fun slot => finishList (many slot)) (fun slot => finishOption (one slot))

def finishList : List (Option Draft) → List (Option Wire)
  | [] => []
  | d :: rest => finishOption d :: finishList rest

def finishOption : Option Draft → Option Wire
  | none => none
  | some d => some d.finish

end

end Draft

structure DocumentDraft where
  version : Text := ""
  units : List (Option Draft) := []
  past : List (Option Draft) := []

def DocumentDraft.finish (d : DocumentDraft) : WireDocument :=
  { version := d.version, units := Draft.finishList d.units }

end LiteralHoist.Document
