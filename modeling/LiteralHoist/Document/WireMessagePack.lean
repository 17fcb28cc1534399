import LiteralHoist.Document.Draft
import LiteralHoist.MessagePack.Value

/-!
# The wire form in MessagePack

Writing uses maps, in the order of the keys and without the empty ones.

Reading accepts, for every node, symbol and document, a map with exactly named keys, where unknown
keys are ignored, or a list of the values of all keys in their order.  An empty list stands for no
key at all.  A repeated key is read over what the earlier one left; a missing list of nodes clears
what was there, and a missing list of words leaves it.
-/

set_option autoImplicit false

namespace LiteralHoist.Document

abbrev Entry := MessagePack × MessagePack

def packWords (ws : List Text) : MessagePack :=
  .list (ws.map .str)

def textEntry (label s : Text) : List Entry :=
  if s = "" then [] else [(.str label, .str s)]

def wordsEntry (label : Text) (ws : List Text) : List Entry :=
  if ws = [] then [] else [(.str label, packWords ws)]

def listEntry (label : Text) (items : List MessagePack) : List Entry :=
  if items.isEmpty then [] else [(.str label, .list items)]

def presentEntry (label : Text) : MessagePack → List Entry
  | .nil => []
  | v => [(.str label, v)]

def WireField.pack (f : WireField) : MessagePack :=
  .map ([(.str FieldKey.owner.label, .str f.owner), (.str FieldKey.name.label, .str f.name)] ++
    wordsEntry FieldKey.mods.label f.mods ++ textEntry FieldKey.type.label f.type)

def Attributes.entry (a : Attributes) (key : Key) : List Entry :=
  match key with
  | .text .kind => [(.str key.label, .str (a.text .kind))]
  | .text k => textEntry key.label (a.text k)
  | .number k => if a.number k = 0 then [] else [(.str key.label, .int (a.number k))]
  | .words k => wordsEntry key.label (a.words k)
  | .field =>
    match a.field with
    | none => []
    | some f => [(.str key.label, f.pack)]
  | .many _ | .one _ => []

mutual

def Wire.pack : Wire → MessagePack
  | .node attrs many one =>
    .map (Key.all.flatMap fun key =>
      match key with
      | .many slot => listEntry key.label (Wire.packList (many slot))
      | .one slot => presentEntry key.label (Wire.packOption (one slot))
      | key => attrs.entry key)

def Wire.packList : List (Option Wire) → List MessagePack
  | [] => []
  | w :: ws => Wire.packOption w :: Wire.packList ws

def Wire.packOption : Option Wire → MessagePack
  | none => .nil
  | some w => w.pack

end

def WireDocument.pack (d : WireDocument) : MessagePack :=
  .map [(.str DocumentKey.version.label, .str d.version),
    (.str DocumentKey.units.label, if d.units.isEmpty then .nil else .list (Wire.packList d.units))]

inductive Unpackable where
  | mk
  deriving DecidableEq, Repr

def unpackText : MessagePack → Except Unpackable Text
  | .nil => .ok ""
  | .str s => .ok s
  | _ => .error .mk

/-- A number; a missing one is zero, and one beyond 64 bits wraps around. -/
def unpackNumber : MessagePack → Except Unpackable Int
  | .nil => .ok 0
  | .int n => .ok (n.bmod 0x10000000000000000)
  | _ => .error .mk

/-- A list of words; a missing one leaves the earlier one. -/
def unpackWords (old : List Text) : MessagePack → Except Unpackable (List Text)
  | .nil => .ok old
  | .list items => items.mapM unpackText
  | _ => .error .mk

def namedKey {κ : Type} (keys : List κ) (label : κ → Text) (key : MessagePack) :
    Except Unpackable (Option κ) := do
  let name ← unpackText key
  return keys.find? fun k => label k == name

def WireField.unpackKey (f : WireField) (key : FieldKey) (v : MessagePack) :
    Except Unpackable WireField := do
  match key with
  | .owner => return { f with owner := ← unpackText v }
  | .name => return { f with name := ← unpackText v }
  | .mods => return { f with mods := ← unpackWords f.mods v }
  | .type => return { f with type := ← unpackText v }

def WireField.unpackEntries (f : WireField) : List Entry → Except Unpackable WireField
  | [] => .ok f
  | (k, v) :: rest => do
    match ← namedKey FieldKey.all FieldKey.label k with
    | none => f.unpackEntries rest
    | some key => (← f.unpackKey key v).unpackEntries rest

def WireField.unpackAll (f : WireField) :
    List FieldKey → List MessagePack → Except Unpackable WireField
  | [], [] => .ok f
  | key :: keys, v :: vs => do (← f.unpackKey key v).unpackAll keys vs
  | _, _ => .error .mk

def unpackField (old : Option WireField) : MessagePack → Except Unpackable (Option WireField)
  | .nil => .ok none
  | .map entries => some <$> (old.getD {}).unpackEntries entries
  | .list [] => .ok (some {})
  | .list items => some <$> (old.getD {}).unpackAll FieldKey.all items
  | _ => .error .mk

def Attributes.unpackKey (a : Attributes) (key : Key) (v : MessagePack) :
    Except Unpackable Attributes := do
  match key with
  | .text k => return a.setText k (← unpackText v)
  | .number k => return a.setNumber k (← unpackNumber v)
  | .words k => return a.setWords k (← unpackWords (a.words k) v)
  | .field => return { a with field := ← unpackField a.field v }
  | .many _ | .one _ => return a

mutual

def unpackNode (old : Option Draft) : MessagePack → Except Unpackable (Option Draft)
  | .nil => .ok none
  | .map entries => some <$> unpackEntries (old.getD .empty) entries
  | .list [] => .ok (some .empty)
  | .list items => some <$> unpackAll (old.getD .empty) Key.all items
  | _ => .error .mk

def unpackEntries (d : Draft) : List Entry → Except Unpackable Draft
  | [] => .ok d
  | (k, v) :: rest => do
    match ← namedKey Key.all Key.label k with
    | none => unpackEntries d rest
    | some (.many slot) =>
      unpackEntries (d.setMany slot (← unpackNodes (d.many slot) (d.past slot) v)) rest
    | some (.one slot) => unpackEntries (d.setOne slot (← unpackNode (d.one slot) v)) rest
    | some key => unpackEntries (d.setAttrs (← d.attrs.unpackKey key v) d.pastWords) rest

def unpackAll (d : Draft) (keys : List Key) : List MessagePack → Except Unpackable Draft
  | [] => if keys.isEmpty then .ok d else .error .mk
  | v :: vs => do
    match keys with
    | [] => .error .mk
    | .many slot :: keys =>
      unpackAll (d.setMany slot (← unpackNodes (d.many slot) (d.past slot) v)) keys vs
    | .one slot :: keys => unpackAll (d.setOne slot (← unpackNode (d.one slot) v)) keys vs
    | key :: keys => unpackAll (d.setAttrs (← d.attrs.unpackKey key v) d.pastWords) keys vs

/-- A list of nodes over an earlier one, whose nodes in the background count as well, and the nodes
that are then in the background. -/
def unpackNodes (old past : List (Option Draft)) :
    MessagePack → Except Unpackable (List (Option Draft) × List (Option Draft))
  | .nil => .ok ([], [])
  | .list items => do
    let nodes ← unpackNodeList (old ++ past) items
    return (nodes, (old ++ past).drop items.length)
  | _ => .error .mk

def unpackNodeList (old : List (Option Draft)) :
    List MessagePack → Except Unpackable (List (Option Draft))
  | [] => .ok []
  | item :: items => do
    let d ← unpackNode (old.headD none) item
    return d :: (← unpackNodeList old.tail items)

end

def DocumentDraft.unpackKey (d : DocumentDraft) (key : DocumentKey) (v : MessagePack) :
    Except Unpackable DocumentDraft := do
  match key with
  | .version => return { d with version := ← unpackText v }
  | .units =>
    let (units, past) ← unpackNodes d.units d.past v
    return { d with units, past }

def DocumentDraft.unpackEntries (d : DocumentDraft) : List Entry → Except Unpackable DocumentDraft
  | [] => .ok d
  | (k, v) :: rest => do
    match ← namedKey DocumentKey.all DocumentKey.label k with
    | none => d.unpackEntries rest
    | some key => (← d.unpackKey key v).unpackEntries rest

def DocumentDraft.unpackAll (d : DocumentDraft) :
    List DocumentKey → List MessagePack → Except Unpackable DocumentDraft
  | [], [] => .ok d
  | key :: keys, v :: vs => do (← d.unpackKey key v).unpackAll keys vs
  | _, _ => .error .mk

def WireDocument.unpack : MessagePack → Except Unpackable WireDocument
  | .nil => .ok {}
  | .map entries => DocumentDraft.finish <$> DocumentDraft.unpackEntries {} entries
  | .list [] => .ok {}
  | .list items => DocumentDraft.finish <$> DocumentDraft.unpackAll {} DocumentKey.all items
  | _ => .error .mk

end LiteralHoist.Document
