import LiteralHoist.Settings.Basic
import LiteralHoist.Yaml.Document
import LiteralHoist.Yaml.Scalar

/-!
# Settings from text

Settings are read from a mapping whose keys name them.  A setting that is missing or null keeps its
default; a key that names none, or stands twice, is an error.  A mapping may take over the entries
of others under a key of its own; it keeps what it sets itself.
-/

set_option autoImplicit false

namespace LiteralHoist.Settings

open LiteralHoist.Yaml

inductive LoadError where
  | malformed
  | invalid (reason : Invalid)
  deriving DecidableEq, Repr

def LoadError.message : LoadError → Text
  | .malformed => "yaml: not a mapping of settings"
  | .invalid reason => reason.message

def setWord (m : Meaning) (s : Settings) (set : Int → Settings) : Option Settings :=
  if m = .null then some s else m.word?.map set

def setTruth (m : Meaning) (s : Settings) (set : Bool → Settings) : Option Settings :=
  if m = .null then some s else m.truth?.map set

def setNamed (s : Settings) (name : Text) (m : Meaning) : Option Settings :=
  if name = "min_occurrences" then
    setWord m s fun n => { s with minOccurrences := n }
  else if name = "max_suffix" then
    setWord m s fun n => { s with maxSuffix := n }
  else if name = "count_annotations" then
    setTruth m s fun b => { s with countAnnotations := b }
  else if name = "jobs" then
    setWord m s fun n => { s with jobs := n }
  else none

def scalarMeaning? : Node → Option Meaning
  | .scalar tag plain text => meaning? tag plain text
  | _ => none

def scalarText : Node → Text
  | .scalar _ _ text => text
  | _ => ""

def sameKey : Node → Node → Bool
  | .scalar _ _ a, .scalar _ _ b => a = b
  | .alias a _, .alias b _ => a = b
  | .sequence _, .sequence _ => true
  | .mapping _, .mapping _ => true
  | _, _ => false

def allDifferent : List Node → Bool
  | [] => true
  | k :: rest => !rest.any (sameKey k) && allDifferent rest

/-- The key under which a mapping takes over the entries of others. -/
def isMergeKey : Node → Bool
  | .scalar tag plain text =>
    text = "<<" &&
      match tag with
      | none => plain
      | some tag => (tag = "!" && plain) || tag = standardTags ++ "merge"
  | _ => false

structure Filling where
  settings : Settings
  done : List Text := []
  /-- The names that mappings have set which take this one over; nothing for an outermost one. -/
  above : Option (List Text) := none
  merged : Option Node := none
  deriving Repr

/-- Sets what an entry says: one under a null says nothing, and one that a mapping above has set is
passed over. -/
def Filling.set (d : Yaml.Document) (f : Filling) (key value : Node) : Option Filling := do
  let key := d.resolve key
  let m ← scalarMeaning? key
  let name := scalarText key
  if m = .null || (f.above.getD []).contains name then some f
  else if f.done.contains name then none
  else
    let settings ← f.settings.setNamed name (← scalarMeaning? (d.resolve value))
    some { f with
      settings
      done := name :: f.done
      above := f.above.map (name :: ·) }

def Filling.setAll (d : Yaml.Document) (f : Filling) (entries : List (Node × Node)) :
    Option Filling :=
  if allDifferent (entries.map Prod.fst) then
    entries.foldlM (fun f (key, value) =>
      if isMergeKey key then some { f with merged := some value } else f.set d key value) f
  else none

def mergedNodes : Node → List Node
  | .sequence items => items
  | n => [n]

/-- Sets what the entries of a node say, and then what those say that it takes over; `steps` bounds
how far that goes.  Gives the names that were set. -/
def fill (d : Yaml.Document) :
    Nat → Settings → Option (List Text) → Node → Option (Settings × List Text)
  | 0, _, _, _ => none
  | steps + 1, s, above, n =>
    match d.resolve n with
    | .mapping entries => do
      let f ← ({ settings := s, above } : Filling).setAll d entries
      let names := f.above.getD f.done
      match f.merged with
      | none => some (f.settings, names)
      | some merged =>
        (mergedNodes merged).foldlM (fun (s, names) n => fill d steps s (some names) n)
          (f.settings, names)
    | _ => none

def ofDocument? (d : Yaml.Document) : Option Settings :=
  match d.root with
  | .scalar tag plain text => if meaning? tag plain text = some .null then some {} else none
  | n => (fill d (d.size + 1) {} none n).map Prod.fst

def load (bytes : List UInt8) : Except LoadError Settings :=
  let settings? : Option Settings := do
    match ← Document.read? bytes with
    | none => some {}
    | some d => ofDocument? d
  match settings? with
  | none => .error .malformed
  | some s =>
    match s.validate with
    | .ok s => .ok s
    | .error reason => .error (.invalid reason)

end LiteralHoist.Settings
