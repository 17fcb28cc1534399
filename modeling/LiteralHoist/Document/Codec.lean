import LiteralHoist.Document.Decode
import LiteralHoist.Document.Encode
import LiteralHoist.Document.Version
import LiteralHoist.Document.WireJson
import LiteralHoist.Document.WireMessagePack
import LiteralHoist.Json.Parse
import LiteralHoist.Json.Print
import LiteralHoist.MessagePack.Read
import LiteralHoist.MessagePack.Write

/-!
# Documents

A document is a version and a tree for each of its units.  It is read from octets and written to
octets in one of two encodings, which a file name selects by its ending.
-/

set_option autoImplicit false

namespace LiteralHoist.Document

open LiteralHoist.Source

inductive Codec where
  | json
  | messagePack
  | unknown (code : Int)
  deriving DecidableEq, Repr

namespace Codec

def ofCode (n : Int) : Codec :=
  if n = 0 then .json else if n = 1 then .messagePack else .unknown n

def name : Codec → Text
  | .json => "json"
  | .messagePack => "msgpack"
  | .unknown code => "Codec(" ++ toString code ++ ")"

def extension (fileName : Text) : Text :=
  let component := (fileName.chars.reverse.takeWhile (· ≠ '/'))
  if component.contains '.' then
    Text.ofChars ('.' :: (component.takeWhile (· ≠ '.')).reverse)
  else ""

/-- The encoding that the ending of a file name selects, or else the ending. -/
def ofFileName (fileName : Text) : Except Text Codec :=
  let ending := extension fileName
  if ending = ".json" then .ok .json
  else if ending = ".msgpack" || ending = ".mpk" then .ok .messagePack
  else .error ending

def unknownEndingMessage (ending : Text) : Text :=
  "unknown document type " ++ Text.quoted ending ++ " (want .json or .msgpack)"

end Codec

inductive DocumentError where
  | json (malformed : Json.Malformed)
  | jsonType
  | messagePack (malformed : MessagePack.Malformed)
  | messagePackType
  | invalidVersion (version : Text)
  | unsupportedVersion (version : Text)
  | node (unit : Text) (error : NodeError)
  | unknownCodec (codec : Codec)
  deriving DecidableEq, Repr

def DocumentError.message : DocumentError → Text
  | .json malformed => malformed.message
  | .jsonType => "json: value of a wrong type"
  | .messagePack malformed => malformed.message
  | .messagePackType => "msgpack: value of a wrong type"
  | .invalidVersion version => "invalid document version " ++ Text.quoted version
  | .unsupportedVersion version => "unsupported document version " ++ version ++ " (want v1.x)"
  | .node unit error => unit ++ ": " ++ error.message
  | .unknownCodec codec => "unknown codec " ++ codec.name

end LiteralHoist.Document

namespace LiteralHoist

open LiteralHoist.Source LiteralHoist.Document

/-- A set of units, each with its tree; a missing unit has an empty tree. -/
structure Document where
  version : Text := ""
  trees : List Tree := []
  deriving DecidableEq, Repr, Inhabited

namespace Document

def readWire (codec : Codec) (bytes : List UInt8) : Except DocumentError WireDocument :=
  match codec with
  | .json =>
    match Json.parse bytes with
    | .error malformed => .error (.json malformed)
    | .ok v =>
      match WireDocument.ofJson v with
      | .ok d => .ok d
      | .error _ => .error .jsonType
  | .messagePack =>
    match MessagePack.read bytes with
    | .error malformed => .error (.messagePack malformed)
    | .ok v =>
      match WireDocument.unpack v with
      | .ok d => .ok d
      | .error _ => .error .messagePackType
  | codec => .error (.unknownCodec codec)

/-- What a unit is called in errors: its name, or its place in the document. -/
def unitLabel (index : Nat) (u : Option Wire) : Text :=
  match u with
  | some w =>
    if w.attrs.text .name = "" then "unit " ++ toString index else w.attrs.text .name
  | none => "unit " ++ toString index

def treesOfUnits : Nat → List (Option Wire) → Except DocumentError (List Tree)
  | _, [] => .ok []
  | index, u :: rest =>
    match treeOfUnit u with
    | .error e => .error (.node (unitLabel index u) e)
    | .ok t => do return t :: (← treesOfUnits (index + 1) rest)

def ofWire (d : WireDocument) : Except DocumentError Document :=
  match Version.major? d.version with
  | none => .error (.invalidVersion d.version)
  | some major =>
    if major ≠ "1" then .error (.unsupportedVersion d.version)
    else do return { version := d.version, trees := ← treesOfUnits 0 d.units }

def read (codec : Codec) (bytes : List UInt8) : Except DocumentError Document := do
  ofWire (← readWire codec bytes)

/-- The wire form of a document; a document without a version gets the current one. -/
def toWire (d : Document) : Except Fault WireDocument := do
  return {
    version := if d.version = "" then Version.current else d.version
    units := ← d.trees.mapM unitOfTree }

def writeWire (codec : Codec) (w : WireDocument) : Except DocumentError (List UInt8) :=
  match codec with
  | .json =>
    match w.toJson.write with
    | .error malformed => .error (.json malformed)
    | .ok text => .ok text.octets
  | .messagePack => .ok w.pack.bytes
  | codec => .error (.unknownCodec codec)

def write (codec : Codec) (d : Document) : Except Fault (Except DocumentError (List UInt8)) := do
  return writeWire codec (← d.toWire)

end Document

end LiteralHoist
