import LiteralHoist.Text.Quoted

/-!
# Declaration modifiers

A declaration carries a set of modifiers, kept as a word of bits.  The words of a set are always
listed in one order, whatever the order in which they were written.
-/

set_option autoImplicit false

namespace LiteralHoist.Source

inductive Modifier where
  | pub
  | prot
  | priv
  | abstract
  | static
  | final
  deriving DecidableEq, Repr

def Modifier.all : List Modifier :=
  [.pub, .prot, .priv, .abstract, .static, .final]

def Modifier.word : Modifier → Text
  | .pub => "public"
  | .prot => "protected"
  | .priv => "private"
  | .abstract => "abstract"
  | .static => "static"
  | .final => "final"

def Modifier.index : Modifier → Nat
  | .pub => 0
  | .prot => 1
  | .priv => 2
  | .abstract => 3
  | .static => 4
  | .final => 5

def Modifier.ofWord? (word : Text) : Option Modifier :=
  Modifier.all.find? fun m => m.word == word

structure Modifiers where
  bits : BitVec 16 := 0
  deriving DecidableEq, Repr, Inhabited

namespace Modifiers

def none : Modifiers := {}

def single (m : Modifier) : Modifiers :=
  ⟨BitVec.twoPow 16 m.index⟩

def union (a b : Modifiers) : Modifiers :=
  ⟨a.bits ||| b.bits⟩

def insert (a : Modifiers) (m : Modifier) : Modifiers :=
  a.union (single m)

def ofList (ms : List Modifier) : Modifiers :=
  ms.foldl insert none

def contains (a : Modifiers) (m : Modifier) : Bool :=
  a.bits.getLsbD m.index

def includes (a b : Modifiers) : Bool :=
  a.bits &&& b.bits == b.bits

def words (a : Modifiers) : List Text :=
  (Modifier.all.filter a.contains).map Modifier.word

def text (a : Modifiers) : Text :=
  Text.intercalate " " a.words

structure Unknown where
  word : Text
  deriving DecidableEq, Repr

def Unknown.message (e : Unknown) : Text :=
  "unknown modifier " ++ Text.quoted e.word

/-- Adds the modifier of each word; the first unknown word is reported. -/
def addWords (a : Modifiers) : List Text → Except Unknown Modifiers
  | [] => .ok a
  | word :: rest =>
    match Modifier.ofWord? word with
    | some m => (a.insert m).addWords rest
    | Option.none => .error ⟨word⟩

def ofWords (words : List Text) : Except Unknown Modifiers :=
  none.addWords words

def constant : Modifiers :=
  ofList [.priv, .static, .final]

end Modifiers

end LiteralHoist.Source
