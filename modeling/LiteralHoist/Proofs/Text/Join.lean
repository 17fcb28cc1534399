import LiteralHoist.Text.Basic

/-!
# Texts put together

Texts one after the other have the octets of each, so putting texts together goes by the laws of
lists.
-/

set_option autoImplicit false

namespace LiteralHoist.Text

theorem octets_append (a b : Text) : (a ++ b).octets = a.octets ++ b.octets :=
  rfl

theorem append_assoc (a b c : Text) : a ++ b ++ c = a ++ (b ++ c) :=
  congrArg Text.mk (List.append_assoc a.octets b.octets c.octets)

theorem append_empty (a : Text) : a ++ ofString "" = a :=
  congrArg Text.mk (List.append_nil a.octets)

theorem empty_append (a : Text) : ofString "" ++ a = a :=
  rfl

theorem size_append (a b : Text) : (a ++ b).size = a.size + b.size :=
  List.length_append

theorem ofChars_append (a b : List Char) : ofChars (a ++ b) = ofChars a ++ ofChars b :=
  congrArg Text.mk List.flatMap_append

theorem join_cons (s : Text) (rest : List Text) : join (s :: rest) = s ++ join rest :=
  congrArg Text.mk List.flatMap_cons

theorem join_append (first second : List Text) :
    join (first ++ second) = join first ++ join second :=
  congrArg Text.mk List.flatMap_append

theorem join_map_join {α : Type} (xs : List α) (parts : α → List Text) :
    join (xs.map fun x => join (parts x)) = join (xs.flatMap parts) := by
  simp [join, List.flatMap_map, List.flatMap_assoc]

theorem intercalate_cons_cons (separator s s' : Text) (rest : List Text) :
    intercalate separator (s :: s' :: rest) =
      s ++ separator ++ intercalate separator (s' :: rest) :=
  congrArg Text.mk List.intercalate_cons_cons

theorem intercalate_singleton (separator s : Text) : intercalate separator [s] = s :=
  congrArg Text.mk List.intercalate_singleton

end LiteralHoist.Text
