import LiteralHoist.Patch.Discard
import LiteralHoist.Patch.Edit
import LiteralHoist.Patch.Middle
import LiteralHoist.Patch.Shift

/-!
# Aligning two texts

The lines that two texts start and end with are unchanged, apart from a few next to the rest that
stay in the comparison so that changes can be shifted into them.  Of the rest, the lines that are
not set aside are compared, and then the runs of changes are shifted on each side.
-/

set_option autoImplicit false

namespace LiteralHoist.Patch

/-- The number of unchanged lines shown around a change, and kept around the comparison. -/
def contextSize : Nat := 3

/-- Flags for all lines from flags for those that take part; the others are changed. -/
def spread : List Bool → List Bool → List Bool
  | [], _ => []
  | true :: rest, flag :: flags => flag :: spread rest flags
  | true :: rest, [] => true :: spread rest []
  | false :: rest, flags => true :: spread rest flags

def select (lines : List Text) (takes : List Bool) : List Text :=
  ((lines.zip takes).filter Prod.snd).map Prod.fst

/-- Which lines are changed in what is left between the common start and end. -/
def changedBetween (old new : List Text) : List Bool × List Bool :=
  let takesOld := takesPart old new
  let takesNew := takesPart new old
  let comparedOld := select old takesOld
  let comparedNew := select new takesNew
  let (changedOld, changedNew) :=
    compare (comparedOld.length + comparedNew.length + 1) comparedOld comparedNew
  let changedOld := spread takesOld changedOld
  let changedNew := spread takesNew changedNew
  let changedOld := shift old changedOld changedNew
  (changedOld, shift new changedNew changedOld)

def changed (old new : List Text) : List Bool × List Bool :=
  let lead := commonStart old new - contextSize
  let old := old.drop lead
  let new := new.drop lead
  let trail := commonStart old.reverse new.reverse - contextSize
  let (fo, fn) :=
    changedBetween (old.take (old.length - trail)) (new.take (new.length - trail))
  let around (flags : List Bool) :=
    List.replicate lead false ++ flags ++ List.replicate trail false
  (around fo, around fn)

def edits (old new : List Text) : List Edit :=
  editsOf old new (changed old new)

end LiteralHoist.Patch
