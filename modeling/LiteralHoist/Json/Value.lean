import LiteralHoist.Text.Basic

/-!
# JSON values

A number is kept as it was written, and the members of an object in the order in which they were
written, repeated names included.
-/

set_option autoImplicit false

namespace LiteralHoist

inductive Json where
  | null
  | bool (b : Bool)
  | num (text : Text)
  | str (s : Text)
  | arr (items : List Json)
  | obj (members : List (Text × Json))
  deriving Repr, Inhabited

end LiteralHoist
