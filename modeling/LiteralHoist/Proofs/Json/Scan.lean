import LiteralHoist.Json.Print
import LiteralHoist.Json.Token
import LiteralHoist.Proofs.Text.Utf8
import Mathlib.Tactic.IntervalCases

/-!
# Tokens of written strings and numbers

The machine that cuts a text into tokens takes every octet for a character.  A string of characters
is written so that it is cut as one token with the same text: an octet of a character beyond ASCII
is no quotation mark, no backslash and no control character, and an escape gives the character back
that it was made for.  An integer is one token if a delimiter follows it.
-/

set_option autoImplicit false

namespace LiteralHoist.Json

def spelled (cs : List Char) : List Char :=
  (cs.flatMap String.utf8EncodeChar).map fun b => Char.ofNat b.toNat

theorem spelled_append (a b : List Char) : spelled (a ++ b) = spelled a ++ spelled b := by
  simp [spelled]

theorem spelled_cons {c : Char} (ascii : c.toNat < 128) (rest : List Char) :
    spelled (c :: rest) = c :: spelled rest := by
  have value := Text.octet_toNat (show c.toNat < 256 by omega)
  simp only [spelled, List.flatMap_cons, Text.encodeChar_ascii ascii, List.singleton_append,
    List.map_cons, value, Char.ofNat_toNat]

theorem spelled_ascii {cs : List Char} (ascii : ∀ c ∈ cs, c.toNat < 128) : spelled cs = cs := by
  induction cs with
  | nil => rfl
  | cons c rest ih =>
      rw [spelled_cons (ascii c (by simp)), ih fun x member => ascii x (by simp [member])]

/-- Pieces of a string have given octets, whatever pieces follow. -/
def Spells (pieces : List Piece) (octets : List UInt8) : Prop :=
  ∀ more, joinPieces (pieces ++ more) = octets ++ joinPieces more

theorem Spells.append {first second : List Piece} {a b : List UInt8} (left : Spells first a)
    (right : Spells second b) : Spells (first ++ second) (a ++ b) := by
  intro more
  rw [List.append_assoc, left, right, List.append_assoc]

theorem spells_octets (bs : List UInt8) : Spells (bs.map .octet) bs := by
  intro more
  induction bs with
  | nil => rfl
  | cons b rest ih => simp [joinPieces, ih]

theorem spells_char (c : Char) : Spells [.char c] (String.utf8EncodeChar c) := by
  intro more
  simp [joinPieces]

theorem spells_unit (c : Char) : Spells [.unit c.toNat] (String.utf8EncodeChar c) := by
  have valid : c.toNat < 0xD800 ∨ 0xDFFF < c.toNat ∧ c.toNat < 0x110000 := c.valid
  have notHigh : Text.isHighHalf c.toNat = false := by simp [Text.isHighHalf]; omega
  have notLow : Text.isLowHalf c.toNat = false := by simp [Text.isLowHalf]; omega
  have itself : unitChar c.toNat = c := by simp [unitChar, notHigh, notLow]
  intro more
  cases more with
  | nil => simp [joinPieces, itself]
  | cons piece rest => cases piece <;> simp [joinPieces, itself, notHigh]

theorem scan_octets (bs : List UInt8) : ∀ (read : List Piece) (rest : List Char),
    (∀ b ∈ bs, 0x20 ≤ b.toNat ∧ b.toNat ≠ 0x22 ∧ b.toNat ≠ 0x5C) →
    scan (.inString read) ((bs.map fun b => Char.ofNat b.toNat) ++ rest) =
      scan (.inString ((bs.map .octet).reverse ++ read)) rest := by
  induction bs with
  | nil => intro read rest _; rfl
  | cons b more ih =>
      intro read rest plain
      obtain ⟨printable, notQuote, notEscape⟩ := plain b (by simp)
      have small : b.toNat < 256 := b.toNat_lt
      have value : (Char.ofNat b.toNat).toNat = b.toNat := by
        rw [Char.ofNat, dif_pos (.inl (by omega))]
        rfl
      have back : UInt8.ofNat (Char.ofNat b.toNat).toNat = b := by rw [value]; simp
      have first : Char.ofNat b.toNat ≠ '\x22' := fun same => notQuote (by rw [← value, same]; rfl)
      have second : Char.ofNat b.toNat ≠ '\\' := fun same => notEscape (by rw [← value, same]; rfl)
      simp only [List.map_cons, List.cons_append, scan, if_neg first, if_neg second, back]
      rw [if_neg (by omega), ih _ _ fun x member => plain x (by simp [member])]
      simp

theorem plain_octets {c : Char} (printable : 0x20 ≤ c.toNat) (notQuote : c ≠ '\x22')
    (notEscape : c ≠ '\\') : ∀ b ∈ String.utf8EncodeChar c,
      0x20 ≤ b.toNat ∧ b.toNat ≠ 0x22 ∧ b.toNat ≠ 0x5C := by
  have first : c.toNat ≠ 0x22 := fun same => notQuote (Char.ext (UInt32.toNat_inj.mp same))
  have second : c.toNat ≠ 0x5C := fun same => notEscape (Char.ext (UInt32.toNat_inj.mp same))
  intro b member
  by_cases ascii : c.toNat < 128
  · rw [Text.encodeChar_ascii ascii, List.mem_singleton] at member
    rw [member, Text.octet_toNat (by omega)]
    exact ⟨printable, first, second⟩
  · have large := Text.le_octet (Nat.le_of_not_lt ascii) member
    omega

theorem hexValue_digitChar : ∀ d < 16, hexValue? (Nat.digitChar d) = some d := by
  decide

theorem digitChar_ascii : ∀ d < 16, (Nat.digitChar d).toNat < 128 := by
  decide

/-- Four hexadecimal digits give the code unit back that they were written for. -/
theorem scan_hexDigits {n : Nat} (small : n < 0x10000) (read : List Piece) (rest : List Char) :
    scan (.inCodePoint 4 0 read) (Text.hexDigits 4 n ++ rest) =
      scan (.inString (.unit n :: read)) rest := by
  have digit : ∀ k, hexValue? (Nat.digitChar (k % 16)) = some (k % 16) :=
    fun k => hexValue_digitChar _ (Nat.mod_lt _ (by decide))
  have whole : (((n / 16 / 16 / 16 % 16) * 16 + n / 16 / 16 % 16) * 16 + n / 16 % 16) * 16 +
      n % 16 = n := by omega
  simp [Text.hexDigits, scan, digit, whole]

theorem spelled_hexDigits (width n : Nat) :
    spelled (Text.hexDigits width n) = Text.hexDigits width n := by
  apply spelled_ascii
  induction width generalizing n with
  | zero => simp [Text.hexDigits]
  | succ width ih =>
      intro c member
      rcases List.mem_append.mp member with upper | last
      · exact ih _ c upper
      · rw [List.mem_singleton.mp last]
        exact digitChar_ascii _ (Nat.mod_lt _ (by decide))

/-- A character inside a string is cut into pieces with its octets. -/
theorem exists_pieces (c : Char) : ∃ pieces, Spells pieces (String.utf8EncodeChar c) ∧
    ∀ read rest, scan (.inString read) (spelled (stringChar c) ++ rest) =
      scan (.inString (pieces.reverse ++ read)) rest := by
  have short : ∀ e, shortEscape? e = some c → e.toNat < 128 → e ≠ 'u' →
      ∃ pieces, Spells pieces (String.utf8EncodeChar c) ∧
        ∀ read rest, scan (.inString read) (spelled ['\\', e] ++ rest) =
          scan (.inString (pieces.reverse ++ read)) rest := by
    intro e escape ascii notUnit
    refine ⟨[.char c], spells_char c, fun read rest => ?_⟩
    rw [spelled_cons (by decide), spelled_cons ascii]
    simp [spelled, scan, notUnit, escape]
  unfold stringChar
  split
  · subst_vars; exact short '\x22' rfl (by decide) (by decide)
  split
  · subst_vars; exact short '\\' rfl (by decide) (by decide)
  split
  · subst_vars; exact short 'n' rfl (by decide) (by decide)
  split
  · subst_vars; exact short 'r' rfl (by decide) (by decide)
  split
  · subst_vars; exact short 't' rfl (by decide) (by decide)
  split
  · subst_vars; exact short 'b' rfl (by decide) (by decide)
  split
  · subst_vars; exact short 'f' rfl (by decide) (by decide)
  split
  · rename_i escaped
    refine ⟨[.unit c.toNat], spells_unit c, fun read rest => ?_⟩
    have small : c.toNat < 0x10000 := by
      simp only [Bool.or_eq_true, decide_eq_true_eq] at escaped
      rcases escaped with ((((control | rfl) | rfl) | rfl) | rfl) | rfl
      · omega
      all_goals decide
    rw [spelled_cons (by decide), spelled_cons (by decide), spelled_hexDigits]
    simp only [List.cons_append, scan]
    exact scan_hexDigits small read rest
  · rename_i notQuote notEscape _ _ _ _ _ plain
    simp only [Bool.or_eq_true, decide_eq_true_eq, not_or] at plain
    refine ⟨(String.utf8EncodeChar c).map .octet, spells_octets _, fun read rest => ?_⟩
    have octets := scan_octets (String.utf8EncodeChar c) read rest
      (plain_octets (by omega) notQuote notEscape)
    simpa [spelled] using octets

theorem scan_stringChars (cs : List Char) (rest : List Char) : ∀ read : List Piece,
    ∃ pieces, Spells pieces (cs.flatMap String.utf8EncodeChar) ∧
      scan (.inString read) (spelled (cs.flatMap stringChar) ++ rest) =
        scan (.inString (pieces.reverse ++ read)) rest := by
  induction cs with
  | nil => exact fun read => ⟨[], fun more => rfl, rfl⟩
  | cons c more ih =>
      intro read
      obtain ⟨first, spells, run⟩ := exists_pieces c
      obtain ⟨second, spells', run'⟩ := ih (first.reverse ++ read)
      refine ⟨first ++ second, spells.append spells', ?_⟩
      rw [List.flatMap_cons, spelled_append, List.append_assoc, run, run']
      simp

/-- A text of characters is cut as one token. -/
theorem scan_quotedString {s : Text} (unicode : s.IsUnicode) (rest : List Char) :
    scan .between (spelled (quotedString s) ++ rest) = .str s :: scan .between rest := by
  obtain ⟨cs, rfl⟩ := unicode
  obtain ⟨pieces, spells, run⟩ := scan_stringChars cs ('\x22' :: rest) []
  have octets : joinPieces pieces = cs.flatMap String.utf8EncodeChar := by
    simpa [joinPieces] using spells []
  have text : piecesText pieces = Text.ofChars cs := by
    rw [piecesText, octets]
    exact congrArg Text.ofChars (Text.chars_ofChars cs)
  have letters : (Text.ofChars cs).letters.flatMap stringLetter = cs.flatMap stringChar := by
    simp [Text.letters_ofChars, List.flatMap_map, stringLetter]
  rw [quotedString, letters, spelled_cons (by decide), spelled_append,
    spelled_cons (c := '\x22') (by decide)]
  simp only [List.cons_append, List.append_assoc, scan, opening]
  have tail : spelled [] ++ rest = rest := rfl
  rw [tail, run]
  simp [scan, text]

theorem digit_cases {c : Char} (digit : c.isDigit = true) :
    c ∈ ['0', '1', '2', '3', '4', '5', '6', '7', '8', '9'] := by
  have bounds : 48 ≤ c.toNat ∧ c.toNat ≤ 57 := by
    simpa [Char.isDigit, UInt32.le_iff_toNat_le] using digit
  obtain ⟨low, high⟩ := bounds
  rw [← Char.ofNat_toNat c]
  interval_cases c.toNat <;> decide

theorem digit_ascii {c : Char} (digit : c.isDigit = true) : c.toNat < 128 := by
  have bounds : 48 ≤ c.toNat ∧ c.toNat ≤ 57 := by
    simpa [Char.isDigit, UInt32.le_iff_toNat_le] using digit
  omega

theorem opening_digit {c : Char} (digit : c.isDigit = true) (positive : c ≠ '0') :
    opening c = .enter (.inNumber .whole c [c]) := by
  have known := digit_cases digit
  simp only [List.mem_cons, List.not_mem_nil, or_false] at known
  rcases known with rfl | rfl | rfl | rfl | rfl | rfl | rfl | rfl | rfl | rfl
  · exact absurd rfl positive
  all_goals decide

/-- The text of a number that is not zero begins with another digit than zero. -/
theorem exists_toDigits {n : Nat} (positive : n ≠ 0) : ∃ c ds, Nat.toDigits 10 n = c :: ds ∧
    c.isDigit = true ∧ c ≠ '0' ∧ ∀ d ∈ ds, d.isDigit = true := by
  induction n using Nat.strongRecOn with
  | ind n ih =>
      rw [Nat.toDigits_eq_if (by decide)]
      split
      · rename_i small
        refine ⟨n.digitChar, [], rfl, ?_, ?_, by simp⟩
        · simpa [Nat.isDigit_digitChar] using small
        · simpa [Nat.digitChar_eq_zero] using positive
      · obtain ⟨c, ds, digits, first, notZero, all⟩ := ih (n / 10) (by omega) (by omega)
        refine ⟨c, ds ++ [(n % 10).digitChar], by rw [digits]; rfl, first, notZero, ?_⟩
        intro d member
        rcases List.mem_append.mp member with inside | last
        · exact all d inside
        · rw [List.mem_singleton.mp last, Nat.isDigit_digitChar]
          simpa using Nat.mod_lt n (by decide)

def Delimited (rest : List Char) : Prop :=
  ∃ c more, rest = c :: more ∧ (c = ',' ∨ c = '\n')

theorem scan_delimited {part : NumberPart} (ends : part = .zero ∨ part = .whole) (first : Char)
    (read : List Char) {rest : List Char} (delimited : Delimited rest) :
    scan (.inNumber part first read) (spelled rest) =
      numberToken read :: scan .between (spelled rest) := by
  obtain ⟨c, more, rfl, rfl | rfl⟩ := delimited <;>
  · rw [spelled_cons (by decide)]
    rcases ends with rfl | rfl <;> rfl

theorem scan_digits (first : Char) (ds : List Char) : ∀ (read : List Char) (rest : List Char),
    (∀ d ∈ ds, d.isDigit = true) →
    scan (.inNumber .whole first read) (ds ++ rest) =
      scan (.inNumber .whole first (ds.reverse ++ read)) rest := by
  induction ds with
  | nil => intro read rest _; rfl
  | cons d more ih =>
      intro read rest digits
      simp only [List.cons_append, scan, NumberPart.next, digits d (by simp), if_true]
      rw [ih _ _ fun x member => digits x (by simp [member])]
      simp

theorem scan_nat (n : Nat) {rest : List Char} (delimited : Delimited rest) :
    scan .between (Nat.toDigits 10 n ++ spelled rest) =
      .num (Text.ofChars (Nat.toDigits 10 n)) :: scan .between (spelled rest) := by
  by_cases zero : n = 0
  · subst zero
    exact scan_delimited (.inl rfl) '0' ['0'] delimited
  · obtain ⟨c, ds, digits, first, notZero, all⟩ := exists_toDigits zero
    rw [digits]
    simp only [List.cons_append, scan, opening_digit first notZero]
    rw [scan_digits c ds _ _ all, scan_delimited (.inr rfl) c _ delimited]
    simp [numberToken]

theorem toList_toString (n : Int) : (toString n).toList = match n with
    | .ofNat m => Nat.toDigits 10 m
    | .negSucc m => '-' :: Nat.toDigits 10 (m + 1) := by
  cases n with
  | ofNat m => simp [toString, Int.repr, Nat.repr_eq_ofList_toDigits]
  | negSucc m => simp [toString, Int.repr, Nat.repr_eq_ofList_toDigits]

/-- An integer is cut as one token. -/
theorem scan_integer (n : Int) {rest : List Char} (delimited : Delimited rest) :
    scan .between (spelled ((Text.ofString (toString n)).chars ++ rest)) =
      .num (Text.ofString (toString n)) :: scan .between (spelled rest) := by
  have digits (m : Nat) : spelled (Nat.toDigits 10 m) = Nat.toDigits 10 m :=
    spelled_ascii fun c member =>
      digit_ascii (Nat.isDigit_of_mem_toDigits (by decide) (by decide) member)
  rw [Text.ofString, Text.chars_ofChars, spelled_append, toList_toString]
  cases n with
  | ofNat m =>
      rw [digits]
      exact scan_nat m delimited
  | negSucc m =>
      obtain ⟨c, ds, digits', first, notZero, all⟩ := exists_toDigits (Nat.succ_ne_zero m)
      have next : NumberPart.next .sign c = some .whole := by
        simp [NumberPart.next, notZero, first]
      rw [spelled_cons (by decide), digits, digits']
      simp only [List.cons_append, scan, opening, next]
      rw [scan_digits '-' ds _ _ all, scan_delimited (.inr rfl) '-' _ delimited]
      simp [numberToken, digits']

end LiteralHoist.Json
