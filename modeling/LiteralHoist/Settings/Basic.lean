import LiteralHoist.Text.Basic

/-!
# Settings
-/

set_option autoImplicit false

namespace LiteralHoist

structure Settings where
  minOccurrences : Int := 2
  /-- The greatest numeric suffix that is tried for a name; zero is no limit. -/
  maxSuffix : Int := 0
  countAnnotations : Bool := true
  jobs : Int := 0
  deriving DecidableEq, Repr, Inhabited

namespace Settings

inductive Invalid where
  | minOccurrences (n : Int)
  | maxSuffix (n : Int)
  | jobs (n : Int)
  deriving DecidableEq, Repr

def Invalid.message : Invalid → Text
  | .minOccurrences n => "min_occurrences must be at least 2, have " ++ toString n
  | .maxSuffix n => "max_suffix must not be negative, have " ++ toString n
  | .jobs n => "jobs must not be negative, have " ++ toString n

def invalid? (s : Settings) : Option Invalid :=
  if s.minOccurrences < 2 then some (.minOccurrences s.minOccurrences)
  else if s.maxSuffix < 0 then some (.maxSuffix s.maxSuffix)
  else if s.jobs < 0 then some (.jobs s.jobs)
  else none

def validate (s : Settings) : Except Invalid Settings :=
  match s.invalid? with
  | some e => .error e
  | none => .ok s

end Settings

end LiteralHoist
