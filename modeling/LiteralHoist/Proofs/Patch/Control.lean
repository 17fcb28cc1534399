import LiteralHoist.Patch.Colour
import LiteralHoist.Proofs.Patch.Written

/-!
# Control sequences

A terminal is sent octets that it shows and control sequences, each of which is an escape, a
bracket, the digits of a number, and the letter m.  The number switches an attribute on, or some
attributes off, and an octet is shown with the attributes that are on when it comes.
-/

set_option autoImplicit false

namespace LiteralHoist.Patch

open Text

def escape : UInt8 := 0x1B

def isDigitOctet (b : UInt8) : Bool :=
  (Char.ofNat b.toNat).isDigit

/-- The number of the control sequence at the start, and what follows the sequence. -/
def readControl? : List UInt8 → Option (Nat × List UInt8)
  | 0x1B :: 0x5B :: rest =>
    let digits := rest.takeWhile isDigitOctet
    match rest.dropWhile isDigitOctet with
    | 0x6D :: after =>
      if digits.isEmpty then none else some (Nat.ofDigitChars 10 (Text.mk digits).chars 0, after)
    | _ => none
  | _ => none

theorem length_readControl? {octets after : List UInt8} {n : Nat}
    (read : readControl? octets = some (n, after)) : after.length < octets.length := by
  unfold readControl? at read
  split at read
  · rename_i rest
    simp only at read
    split at read
    · rename_i found
      have shorter := (List.dropWhile_sublist isDigitOctet (l := rest)).length_le
      simp only [Option.ite_none_left_eq_some, Option.some.injEq, Prod.mk.injEq] at read
      obtain ⟨-, -, rfl⟩ := read
      rw [found, List.length_cons] at shorter
      simp only [List.length_cons]
      omega
    · contradiction
  · contradiction

inductive Piece where
  | octet (b : UInt8)
  | control (n : Nat)
  deriving DecidableEq, Repr

def pieces : List UInt8 → List Piece
  | [] => []
  | b :: rest =>
    match _read : readControl? (b :: rest) with
    | some (n, after) => .control n :: pieces after
    | none => .octet b :: pieces rest
termination_by octets => octets.length
decreasing_by
  · exact length_readControl? _read
  · exact Nat.lt_succ_self _

def Piece.octet? : Piece → Option UInt8
  | .octet b => some b
  | .control _ => none

def withoutControls (t : Text) : Text :=
  ⟨(pieces t.octets).filterMap Piece.octet?⟩

/-- The attributes that are on after a control sequence.  Zero switches all of them off, 22 the
weights 1 and 2, and 39 the colours; any other number is an attribute that is switched on. -/
def switched (on : List Nat) (n : Nat) : List Nat :=
  if n = 0 then []
  else if n = 22 then on.filter fun a => a ≠ 1 ∧ a ≠ 2
  else if n = 39 then on.filter fun a => a < 30 ∨ 37 < a
  else n :: on

def shownFrom (on : List Nat) : List Piece → List (UInt8 × List Nat)
  | [] => []
  | .octet b :: rest => (b, on) :: shownFrom on rest
  | .control n :: rest => shownFrom (switched on n) rest

/-- The octets of a text that a terminal shows, each with the attributes that are on.  At first
there are none. -/
def shownOctets (t : Text) : List (UInt8 × List Nat) :=
  shownFrom [] (pieces t.octets)

theorem shownFrom_octets (on : List Nat) (octets : List UInt8) (rest : List Piece) :
    shownFrom on (octets.map .octet ++ rest) =
      octets.map (fun b => (b, on)) ++ shownFrom on rest := by
  induction octets with
  | nil => rfl
  | cons b later ih => exact congrArg ((b, on) :: ·) ih

theorem filterMap_octets (octets : List UInt8) :
    (octets.map Piece.octet).filterMap Piece.octet? = octets := by
  induction octets with
  | nil => rfl
  | cons b later ih => exact congrArg (b :: ·) ih

theorem pieces_nil : pieces [] = [] := by
  rw [pieces]

theorem pieces_of_some {b : UInt8} {rest after : List UInt8} {n : Nat}
    (read : readControl? (b :: rest) = some (n, after)) :
    pieces (b :: rest) = .control n :: pieces after := by
  rw [pieces]
  split
  · rename_i found
    obtain ⟨rfl, rfl⟩ := Prod.mk.inj (Option.some.inj (read.symm.trans found))
    rfl
  · rename_i found
    exact absurd (read.symm.trans found) (by simp)

theorem pieces_of_none {b : UInt8} {rest : List UInt8} (read : readControl? (b :: rest) = none) :
    pieces (b :: rest) = .octet b :: pieces rest := by
  rw [pieces]
  split
  · rename_i found
    exact absurd (read.symm.trans found) (by simp)
  · rfl

theorem pieces_octet {b : UInt8} (plain : b ≠ escape) (rest : List UInt8) :
    pieces (b :: rest) = .octet b :: pieces rest := by
  refine pieces_of_none ?_
  unfold readControl?
  split
  · rename_i start
    exact absurd (List.cons.inj start).1 plain
  · rfl

theorem pieces_octets {octets : List UInt8} (plain : escape ∉ octets) (rest : List UInt8) :
    pieces (octets ++ rest) = octets.map .octet ++ pieces rest := by
  induction octets with
  | nil => rfl
  | cons b later ih =>
      obtain ⟨here, others⟩ := List.ne_and_not_mem_of_not_mem_cons plain
      rw [List.cons_append, pieces_octet (Ne.symm here), ih others]
      rfl

theorem ofNat_eq (n : Nat) : ofNat n = ofChars (Nat.toDigits 10 n) :=
  ofString_toString n

theorem isDigitOctet_of_mem_ofNat {n : Nat} {b : UInt8} (member : b ∈ (ofNat n).octets) :
    isDigitOctet b = true := by
  rw [ofNat_eq] at member
  obtain ⟨c, inside, spelled⟩ := List.mem_flatMap.mp member
  have digit : c.isDigit = true := Nat.isDigit_of_mem_toDigits (by decide) (by decide) inside
  have last : c.toNat ≤ '9'.toNat := (Char.isDigit_iff_toNat.mp digit).2
  have ascii : c.toNat < 128 := Nat.lt_of_le_of_lt last (by decide)
  rw [encodeChar_ascii ascii, List.mem_singleton] at spelled
  rw [isDigitOctet, spelled, octet_toNat (by omega), Char.ofNat_toNat]
  exact digit

theorem ofNat_ne_nil (n : Nat) : (ofNat n).octets ≠ [] := by
  rw [ofNat_eq]
  intro empty
  have none : (ofChars (Nat.toDigits 10 n)).chars = [] := by
    rw [chars, letters, empty]
    rfl
  exact Nat.toDigits_ne_nil ((chars_ofChars _).symm.trans none)

theorem octets_control (n : Nat) (rest : List UInt8) :
    (control n).octets ++ rest = 0x1B :: 0x5B :: ((ofNat n).octets ++ 0x6D :: rest) :=
  List.append_assoc (0x1B :: 0x5B :: (ofNat n).octets) [0x6D] rest

theorem readControl?_control (n : Nat) (rest : List UInt8) :
    readControl? ((control n).octets ++ rest) = some (n, rest) := by
  have digits : ∀ b ∈ (ofNat n).octets, isDigitOctet b = true :=
    fun _ member => isDigitOctet_of_mem_ofNat member
  have letter : isDigitOctet 0x6D = false := by decide
  have taken : ((ofNat n).octets ++ 0x6D :: rest).takeWhile isDigitOctet = (ofNat n).octets := by
    rw [List.takeWhile_append_of_pos digits, List.takeWhile_cons_of_neg (by simp [letter]),
      List.append_nil]
  have dropped : ((ofNat n).octets ++ 0x6D :: rest).dropWhile isDigitOctet = 0x6D :: rest := by
    rw [List.dropWhile_append_of_pos digits, List.dropWhile_cons_of_neg (by simp [letter])]
  have value : Nat.ofDigitChars 10 (ofNat n).chars 0 = n := by
    rw [ofNat_eq, chars_ofChars, Nat.ofDigitChars_ten_toDigits]
  rw [octets_control]
  simp [readControl?, taken, dropped, ofNat_ne_nil, value]

theorem pieces_control (n : Nat) (rest : List UInt8) :
    pieces ((control n).octets ++ rest) = .control n :: pieces rest := by
  have read := readControl?_control n rest
  rw [octets_control] at read ⊢
  exact pieces_of_some read

theorem lineFeed_not_mem_control (n : Nat) : lineFeed ∉ (control n).octets := by
  have number : lineFeed ∉ (ofNat n).octets := by
    rw [ofNat_eq]
    exact lineFeed_not_mem_ofChars (printable_toDigits n)
  have spelled : (control n).octets = _ := (List.append_nil _).symm.trans (octets_control n [])
  rw [spelled]
  simpa [lineFeed] using number

end LiteralHoist.Patch
