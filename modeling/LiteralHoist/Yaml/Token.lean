import LiteralHoist.Text.Basic

/-!
# Tokens

A stream is cut into tokens.  The tokens that open and close a block stand for changes of
indentation and have no characters of their own.
-/

set_option autoImplicit false

namespace LiteralHoist.Yaml

inductive Token where
  | streamEnd
  | version (major minor : Nat)
  | tagHandle (handle start : Text)
  | documentStart
  | documentEnd
  | blockSequenceStart
  | blockMappingStart
  | blockEnd
  | flowSequenceStart
  | flowSequenceEnd
  | flowMappingStart
  | flowMappingEnd
  | blockEntry
  | flowEntry
  | key
  | value
  | alias (name : Text)
  | anchor (name : Text)
  | tag (handle suffix : Text)
  | scalar (plain : Bool) (text : Text)
  deriving DecidableEq, Repr

end LiteralHoist.Yaml
