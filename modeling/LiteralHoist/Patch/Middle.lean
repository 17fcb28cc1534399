/-!
# The middle of a comparison

Two sequences are compared by looking for a shortest path from the start of both to the end of
both, where a step passes one item of either sequence and equal items are passed at no cost.  The
search starts from both ends at once, one step at a time, and stops where the two fronts meet; that
point divides the comparison in two.

A point is given by its diagonal, the difference of the two numbers of items passed, and by the
number of items passed of the first sequence.
-/

set_option autoImplicit false

namespace LiteralHoist.Patch

variable {α : Type} [BEq α]

/-- How far a search has come on each diagonal between two limits. -/
structure Front where
  reached : Array Int
  low : Int
  high : Int

structure Sides (α : Type) where
  xs : Array α
  ys : Array α

namespace Sides

def lowest (s : Sides α) : Int := -s.ys.size

def highest (s : Sides α) : Int := s.xs.size

def index (s : Sides α) (d : Int) : Nat :=
  (d + s.ys.size + 1).toNat

def reached (s : Sides α) (f : Front) (d : Int) : Int :=
  f.reached.getD (s.index d) 0

def reach (s : Sides α) (f : Front) (d x : Int) : Front :=
  { f with reached := f.reached.setIfInBounds (s.index d) x }

def start (s : Sides α) (d x : Int) : Front :=
  s.reach ⟨Array.replicate (s.xs.size + s.ys.size + 3) 0, d, d⟩ d x

/-- Widens the limits of a front by one where there are diagonals left, and narrows them where
there are none; `outside` stands on the diagonals beyond the limits. -/
def widen (s : Sides α) (outside : Int) (f : Front) : Front :=
  let f :=
    if s.lowest < f.low then { s.reach f (f.low - 2) outside with low := f.low - 1 }
    else { f with low := f.low + 1 }
  if f.high < s.highest then { s.reach f (f.high + 2) outside with high := f.high + 1 }
  else { f with high := f.high - 1 }

def agree (s : Sides α) (x y : Int) : Bool :=
  if 0 ≤ x ∧ 0 ≤ y then
    match s.xs[x.toNat]?, s.ys[y.toNat]? with
    | some a, some b => a == b
    | _, _ => false
  else false

def slideForward (s : Sides α) (d : Int) : Nat → Int → Int
  | 0, x => x
  | steps + 1, x => if s.agree x (x - d) then s.slideForward d steps (x + 1) else x

def slideBackward (s : Sides α) (d : Int) : Nat → Int → Int
  | 0, x => x
  | steps + 1, x =>
    if s.agree (x - 1) (x - 1 - d) then s.slideBackward d steps (x - 1) else x

def diagonals (f : Front) : List Int :=
  (List.range ((f.high - f.low) / 2 + 1).toNat).map fun (k : Nat) => f.high - 2 * (k : Int)

/-- Advances the front from the start; gives the point where it meets the other, if they can meet
now. -/
def forward (s : Sides α) (meets : Bool) (other : Front) :
    List Int → Front → Front × Option (Int × Int)
  | [], f => (f, none)
  | d :: rest, f =>
    let below := s.reached f (d - 1)
    let above := s.reached f (d + 1)
    let x := s.slideForward d s.xs.size (if below < above then above else below + 1)
    let f := s.reach f d x
    if meets && other.low ≤ d && d ≤ other.high && s.reached other d ≤ x then
      (f, some (x, x - d))
    else s.forward meets other rest f

def backward (s : Sides α) (meets : Bool) (other : Front) :
    List Int → Front → Front × Option (Int × Int)
  | [], f => (f, none)
  | d :: rest, f =>
    let below := s.reached f (d - 1)
    let above := s.reached f (d + 1)
    let x := s.slideBackward d s.xs.size (if below < above then below else above - 1)
    let f := s.reach f d x
    if meets && other.low ≤ d && d ≤ other.high && x ≤ s.reached other d then
      (f, some (x, x - d))
    else s.backward meets other rest f

def meet (s : Sides α) (odd : Bool) : Nat → Front → Front → Option (Int × Int)
  | 0, _, _ => none
  | steps + 1, f, b =>
    let f := s.widen (-1) f
    match s.forward odd b (diagonals f) f with
    | (_, some point) => some point
    | (f, none) =>
      let b := s.widen (s.xs.size + 1) b
      match s.backward (!odd) f (diagonals b) b with
      | (_, some point) => some point
      | (b, none) => s.meet odd steps f b

def middle (s : Sides α) : Option (Nat × Nat) :=
  let last : Int := s.xs.size - s.ys.size
  (s.meet (last % 2 ≠ 0) (s.xs.size + s.ys.size) (s.start 0 0) (s.start last s.xs.size)).map
    fun (x, y) => (x.toNat, y.toNat)

end Sides

def commonStart : List α → List α → Nat
  | a :: as, b :: bs => if a == b then commonStart as bs + 1 else 0
  | _, _ => 0

/-- Which items of two sequences are changed, the others matching one by one.  What is alike at
the start and at the end is passed, and what is left is divided at its middle. -/
def compare : Nat → List α → List α → List Bool × List Bool
  | 0, xs, ys => (xs.map fun _ => true, ys.map fun _ => true)
  | depth + 1, xs, ys =>
    let lead := commonStart xs ys
    let xs := xs.drop lead
    let ys := ys.drop lead
    let trail := commonStart xs.reverse ys.reverse
    let xs := xs.take (xs.length - trail)
    let ys := ys.take (ys.length - trail)
    let all := (xs.map fun _ => true, ys.map fun _ => true)
    let (fx, fy) :=
      if xs.isEmpty || ys.isEmpty then all
      else
        match (Sides.mk xs.toArray ys.toArray).middle with
        | none => all
        | some (i, j) =>
          let first := compare depth (xs.take i) (ys.take j)
          let second := compare depth (xs.drop i) (ys.drop j)
          (first.1 ++ second.1, first.2 ++ second.2)
    let around (flags : List Bool) :=
      List.replicate lead false ++ flags ++ List.replicate trail false
    (around fx, around fy)

end LiteralHoist.Patch
