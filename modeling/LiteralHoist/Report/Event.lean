import LiteralHoist.Consolidate.Apply
import LiteralHoist.Json.Print

/-!
# Logged events

What is done is logged in events, each with a level, a sentence and named fields.
-/

set_option autoImplicit false

namespace LiteralHoist.Report

open LiteralHoist.Consolidate

inductive Level where
  | debug
  | info
  | warn
  deriving DecidableEq, Repr

namespace Level

def name : Level → Text
  | .debug => "debug"
  | .info => "info"
  | .warn => "warn"

def rank : Level → Nat
  | .debug => 0
  | .info => 1
  | .warn => 2

end Level

inductive FieldValue where
  | text (s : Text)
  | count (n : Nat)
  deriving DecidableEq, Repr

def FieldValue.shown : FieldValue → Text
  | .text s => Text.ofChars (Json.quotedString s)
  | .count n => toString n

inductive Event where
  | skippedValue (fqn : Text) (skip : Skip)
  | consolidated (fqn : Text) (group : Group)
  | skippedClass (error : Unresolved)
  | processed (file : Text) (stats : Stats)
  deriving DecidableEq, Repr

namespace Event

def level : Event → Level
  | .skippedValue _ _ => .info
  | .consolidated _ _ => .debug
  | .skippedClass _ => .warn
  | .processed _ _ => .debug

def sentence : Event → Text
  | .skippedValue _ _ => "skipping duplicate literal"
  | .consolidated _ _ => "consolidating literal"
  | .skippedClass _ => "skipping class"
  | .processed _ _ => "processed file"

def fields : Event → List (Text × FieldValue)
  | .skippedValue fqn s =>
    [("class", .text fqn), ("value", .text s.value), ("occurrences", .count s.sites.length),
     ("reason", .text Skip.reason)]
  | .consolidated fqn g =>
    let old : List (Text × FieldValue) :=
      if g.action = .rename then [("old", .text g.oldName)] else []
    ("class", .text fqn) :: ("value", .text g.value) :: ("action", .text g.action.name) ::
      ("name", .text g.name) :: ("occurrences", .count g.sites.length) :: old
  | .skippedClass e =>
    [("class", .text e.className), ("error", .text e.message)]
  | .processed file s =>
    [("file", .text file), ("inserted", .count s.inserted), ("reused", .count s.reused),
     ("renamed", .count s.renamed), ("replaced", .count s.replaced)]

def line (e : Event) : Text :=
  let member (name : Text) (value : FieldValue) : Text :=
    "\"" ++ name ++ "\":" ++ value.shown
  let members := [member "level" (.text e.level.name), member "msg" (.text e.sentence)] ++
    e.fields.map fun (name, value) => member name value
  "\x7b" ++ Text.intercalate "," members ++ "\x7d\n"

def reaches (least : Level) (e : Event) : Bool :=
  least.rank ≤ e.level.rank

end Event

/-- The events of a planned class: first the values that are left alone, then the others. -/
def eventsOf (p : Plan) : List Event :=
  p.skipped.map (.skippedValue p.fqn) ++ p.groups.map (.consolidated p.fqn)

end LiteralHoist.Report
