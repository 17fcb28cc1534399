import LiteralHoist.Document.Draft
import LiteralHoist.Json.Value

/-!
# The wire form in JSON

Writing leaves out what is empty, except the keys that every node, symbol and document has.

Reading accepts keys in any capitalisation and ignores unknown ones.  A value of the wrong type
for a known key is refused.  A repeated key is read over what the earlier one left: the members of
an object and the items of a list replace those before them one by one, and a missing text or
number leaves the earlier one.  A missing or empty list clears what was there.
-/

set_option autoImplicit false

namespace LiteralHoist.Document

def jsonWords (ws : List Text) : Json :=
  .arr (ws.map .str)

def textMember (label s : Text) : List (Text × Json) :=
  if s = "" then [] else [(label, .str s)]

def wordsMember (label : Text) (ws : List Text) : List (Text × Json) :=
  if ws = [] then [] else [(label, jsonWords ws)]

def listMember (label : Text) (items : List Json) : List (Text × Json) :=
  if items.isEmpty then [] else [(label, .arr items)]

def presentMember (label : Text) : Json → List (Text × Json)
  | .null => []
  | v => [(label, v)]

def WireField.toJson (f : WireField) : Json :=
  .obj ([(FieldKey.owner.label, .str f.owner), (FieldKey.name.label, .str f.name)] ++
    wordsMember FieldKey.mods.label f.mods ++ textMember FieldKey.type.label f.type)

def Attributes.member (a : Attributes) (key : Key) : List (Text × Json) :=
  match key with
  | .text .kind => [(key.label, .str (a.text .kind))]
  | .text k => textMember key.label (a.text k)
  | .number k => if a.number k = 0 then [] else [(key.label, .num (toString (a.number k)))]
  | .words k => wordsMember key.label (a.words k)
  | .field =>
    match a.field with
    | none => []
    | some f => [(key.label, f.toJson)]
  | .many _ | .one _ => []

mutual

def Wire.toJson : Wire → Json
  | .node attrs many one =>
    .obj (Key.all.flatMap fun key =>
      match key with
      | .many slot => listMember key.label (Wire.listJson (many slot))
      | .one slot => presentMember key.label (Wire.optionJson (one slot))
      | key => attrs.member key)

def Wire.listJson : List (Option Wire) → List Json
  | [] => []
  | w :: ws => Wire.optionJson w :: Wire.listJson ws

def Wire.optionJson : Option Wire → Json
  | none => .null
  | some w => w.toJson

end

/-- A document; a list of no units is written as missing. -/
def WireDocument.toJson (d : WireDocument) : Json :=
  .obj [(DocumentKey.version.label, .str d.version),
    (DocumentKey.units.label, if d.units.isEmpty then .null else .arr (Wire.listJson d.units))]

inductive Mismatch where
  | mk
  deriving DecidableEq, Repr

/-- The upper case form under which keys are compared.  Two characters outside ASCII have an ASCII
letter as their upper case form. -/
def foldChar (c : Char) : Char :=
  if c = '\u017F' then 'S' else if c = '\u212A' then 'K' else c.toUpper

def foldKey (s : Text) : List Char :=
  s.chars.map foldChar

/-- The key of a name: written exactly so, or else in another capitalisation. -/
def findKey {κ : Type} (keys : List κ) (label : κ → Text) (name : Text) : Option κ :=
  (keys.find? fun k => label k == name).or
    (keys.find? fun k => foldKey (label k) == foldKey name)

def readText (old : Text) : Json → Except Mismatch Text
  | .null => .ok old
  | .str s => .ok s
  | _ => .error .mk

def digitsValue? (cs : List Char) : Option Nat :=
  if cs.isEmpty || !cs.all Char.isDigit then none
  else some (cs.foldl (fun n c => n * 10 + (c.toNat - '0'.toNat)) 0)

def integer? (s : Text) : Option Int :=
  match s.chars with
  | '-' :: cs => (digitsValue? cs).map fun n => -(n : Int)
  | cs => (digitsValue? cs).map fun n => (n : Int)

def fits64 (n : Int) : Bool :=
  -0x8000000000000000 ≤ n && n < 0x8000000000000000

def readNumber (old : Int) : Json → Except Mismatch Int
  | .null => .ok old
  | .num text =>
    match integer? text with
    | some n => if fits64 n then .ok n else .error .mk
    | none => .error .mk
  | _ => .error .mk

def readWordList : List Text → List Json → Except Mismatch (List Text)
  | _, [] => .ok []
  | old, item :: items => do
    let word ← readText (old.headD "") item
    return word :: (← readWordList old.tail items)

/-- A list of words over an earlier one, whose words in the background count as well, and the words
that are then in the background.  An empty list leaves none. -/
def readWords (old past : List Text) : Json → Except Mismatch (List Text × List Text)
  | .null => .ok ([], [])
  | .arr [] => .ok ([], [])
  | .arr items => do
    let words ← readWordList (old ++ past) items
    return (words, (old ++ past).drop items.length)
  | _ => .error .mk

abbrev FieldDraft := WireField × List Text

def readFieldMember (f : FieldDraft) (key : FieldKey) (v : Json) : Except Mismatch FieldDraft := do
  match key with
  | .owner => return ({ f.1 with owner := ← readText f.1.owner v }, f.2)
  | .name => return ({ f.1 with name := ← readText f.1.name v }, f.2)
  | .mods =>
    let (mods, past) ← readWords f.1.mods f.2 v
    return ({ f.1 with mods }, past)
  | .type => return ({ f.1 with type := ← readText f.1.type v }, f.2)

def readFieldMembers (f : FieldDraft) : List (Text × Json) → Except Mismatch FieldDraft
  | [] => .ok f
  | (name, v) :: rest => do
    match findKey FieldKey.all FieldKey.label name with
    | none => readFieldMembers f rest
    | some key => readFieldMembers (← readFieldMember f key v) rest

def readField (old : Option WireField) (past : List Text) :
    Json → Except Mismatch (Option WireField × List Text)
  | .null => .ok (none, [])
  | .obj members => do
    let (f, past) ← readFieldMembers (old.getD {}, past) members
    return (some f, past)
  | _ => .error .mk

def readAttribute (d : Draft) (key : Key) (v : Json) : Except Mismatch Draft := do
  let a := d.attrs
  let p := d.pastWords
  match key with
  | .text k => return d.setAttrs (a.setText k (← readText (a.text k) v)) p
  | .number k => return d.setAttrs (a.setNumber k (← readNumber (a.number k) v)) p
  | .words k =>
    let (words, past) ← readWords (a.words k) (p.words k) v
    return d.setAttrs (a.setWords k words) (p.set k past)
  | .field =>
    let (field, past) ← readField a.field p.fieldMods v
    return d.setAttrs { a with field } { p with fieldMods := past }
  | .many _ | .one _ => return d

mutual

def readNode (old : Option Draft) : Json → Except Mismatch (Option Draft)
  | .null => .ok none
  | .obj members => some <$> readMembers (old.getD .empty) members
  | _ => .error .mk

def readMembers (d : Draft) : List (Text × Json) → Except Mismatch Draft
  | [] => .ok d
  | (name, v) :: rest => do
    match findKey Key.all Key.label name with
    | none => readMembers d rest
    | some (.many slot) =>
      readMembers (d.setMany slot (← readNodes (d.many slot) (d.past slot) v)) rest
    | some (.one slot) => readMembers (d.setOne slot (← readNode (d.one slot) v)) rest
    | some key => readMembers (← readAttribute d key v) rest

/-- A list of nodes over an earlier one, whose nodes in the background count as well, and the nodes
that are then in the background.  An empty list leaves none. -/
def readNodes (old past : List (Option Draft)) :
    Json → Except Mismatch (List (Option Draft) × List (Option Draft))
  | .null => .ok ([], [])
  | .arr [] => .ok ([], [])
  | .arr items => do
    let nodes ← readNodeList (old ++ past) items
    return (nodes, (old ++ past).drop items.length)
  | _ => .error .mk

def readNodeList (old : List (Option Draft)) : List Json → Except Mismatch (List (Option Draft))
  | [] => .ok []
  | item :: items => do
    let d ← readNode (old.headD none) item
    return d :: (← readNodeList old.tail items)

end

def DocumentDraft.readMembers (d : DocumentDraft) :
    List (Text × Json) → Except Mismatch DocumentDraft
  | [] => .ok d
  | (name, v) :: rest => do
    match findKey DocumentKey.all DocumentKey.label name with
    | none => d.readMembers rest
    | some .version => ({ d with version := ← readText d.version v }).readMembers rest
    | some .units =>
      let (units, past) ← readNodes d.units d.past v
      ({ d with units, past }).readMembers rest

/-- The wire form of a document that a value is; a missing value is an empty document. -/
def WireDocument.ofJson : Json → Except Mismatch WireDocument
  | .null => .ok {}
  | .obj members => DocumentDraft.finish <$> DocumentDraft.readMembers {} members
  | _ => .error .mk

end LiteralHoist.Document
