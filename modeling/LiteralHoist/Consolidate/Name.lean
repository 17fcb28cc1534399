import LiteralHoist.Text.Basic

/-!
# Names of constants

The name of a constant is made from a text: its ASCII letters and digits in upper case, its words
separated by single underscores.  A word starts at a letter or digit after any other character, or
at an upper case letter where the last letter before it is a lower case one.  A name does not
start with a digit.

If a name is taken, it is tried with the suffixes `_1`, `_2` and so on.
-/

set_option autoImplicit false

namespace LiteralHoist.Consolidate

/-- The characters of the name made from a text, after the last that was written.  The flags say
whether the character before is a letter or digit, and whether the last letter before is a lower
case one. -/
def nameChars (written : Option Char) (afterAlphanum afterLower : Bool) : List Char → List Char
  | [] => []
  | c :: rest =>
    if !c.isAlphanum then nameChars written false afterLower rest
    else
      let separator : List Char :=
        if written.isNone then if c.isDigit then ['A', '_'] else []
        else if written ≠ some '_' && (!afterAlphanum || (c.isUpper && afterLower)) then ['_']
        else []
      let afterLower := if c.isDigit then afterLower else c.isLower
      separator ++ c.toUpper :: nameChars (some c.toUpper) true afterLower rest

/-- The name made from a text; it is empty if the text has no ASCII letter or digit. -/
def constantName (s : Text) : Text :=
  Text.ofChars (nameChars none false false s.chars)

def suffixed (base : Text) (i : Nat) : Text :=
  if i = 0 then base else base ++ "_" ++ toString i

structure Search where
  found : Option Text
  asked : List Text
  deriving DecidableEq, Repr

/-- Asks about a name with suffix `i`, and goes on with the next while names are taken and the
limit allows it; a limit that is not positive is none. -/
def searchFrom (base : Text) (taken : Text → Bool) (limit : Int) : Nat → Nat → Search
  | 0, _ => ⟨none, []⟩
  | steps + 1, i =>
    let name := suffixed base i
    if !taken name then ⟨some name, [name]⟩
    else if 0 < limit ∧ limit < i + 1 then ⟨none, [name]⟩
    else
      let later := searchFrom base taken limit steps (i + 1)
      ⟨later.found, name :: later.asked⟩

/-- The first free name made from a text.  At most `count` names are taken, so that one of
`count + 1` different names is free. -/
def freeName (seed : Text) (taken : Text → Bool) (count : Nat) (limit : Int) : Search :=
  let base := constantName seed
  if base = "" then ⟨none, []⟩ else searchFrom base taken limit (count + 1) 0

end LiteralHoist.Consolidate
