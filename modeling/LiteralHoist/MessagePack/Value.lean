import LiteralHoist.Text.Basic

/-!
# MessagePack values

Texts and strings of octets are not told apart.  Values that no document uses are read, so that
they can be skipped, but not kept.
-/

set_option autoImplicit false

namespace LiteralHoist

inductive MessagePack where
  | nil
  | bool (b : Bool)
  | int (n : Int)
  | str (s : Text)
  | list (items : List MessagePack)
  | map (entries : List (MessagePack × MessagePack))
  /-- A floating point number or an extension. -/
  | other
  deriving Repr, Inhabited

end LiteralHoist
