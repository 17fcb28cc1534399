import LiteralHoist.Source.Kind

/-!
# Faults

An operation on a tree that no well-formed tree can provoke stops with a fault.  Some faults are
announced in words; the others only say that the tree could not be followed.
-/

set_option autoImplicit false

namespace LiteralHoist.Source

inductive Fault where
  | nothingToAdd
  | invalidPlace (id : Nat)
  | dangling (id : Nat)
  | emptyPlace
  | wrongForm
  | notExpression (kind : Kind)
  | noExpression
  | notAnnotatable (kind : Kind)
  | notClass (id : Nat)
  | unknownAction (code : Int)
  | unbalanced
  | endless
  deriving DecidableEq, Repr

def Fault.message : Fault → Option Text
  | .nothingToAdd => some "jtree: Add(nil)"
  | .invalidPlace id => some ("jtree: Set of invalid node " ++ toString id)
  | .notExpression kind => some ("jtree: " ++ kind.name ++ " in expression position")
  | .noExpression => some "jtree: unexpected node <nil>"
  | .notAnnotatable kind => some ("jtree: cannot annotate " ++ kind.name)
  | .notClass id => some ("refactor: node " ++ toString id ++ " is not a class")
  | .unknownAction code =>
    some ("refactor: unexpected action Action(" ++ toString code ++ ")")
  | .unbalanced => some "internal stack error"
  | .dangling _ | .emptyPlace | .wrongForm | .endless => none

end LiteralHoist.Source
