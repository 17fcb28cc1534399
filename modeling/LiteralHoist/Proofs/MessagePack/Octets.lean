import LiteralHoist.MessagePack.Read
import LiteralHoist.MessagePack.Write
import LiteralHoist.Proofs.Source.Arena
import Mathlib.Algebra.Order.Ring.Nat
import Mathlib.Data.List.Induction

/-!
# Octets of MessagePack values

A value is read back from the octets it is written as, whatever follows them, if its numbers are
those of 64 bits and its lengths fit in a head.  The longest head has four octets for the length,
and so no octets at all are read as a value with a longer text, list or map.
-/

set_option autoImplicit false

namespace LiteralHoist.MessagePack

/-- Lengths below this one have a head. -/
def lengthLimit : Nat := 0x100000000

def HasHead : MessagePack → Prop
  | .str s => s.size < lengthLimit
  | .list items => items.length < lengthLimit
  | .map pairs => pairs.length < lengthLimit
  | .nil | .bool _ | .int _ | .other => True

/-- A value has a form of its own: a number is one of 64 bits, and a length has a head. -/
def HasForm : MessagePack → Prop
  | .int n => -0x8000000000000000 ≤ n ∧ n < 0x10000000000000000
  | .other => False
  | v => v.HasHead

mutual

/-- A value and all values in it have a property. -/
def Every (P : MessagePack → Prop) : MessagePack → Prop
  | .list items => P (.list items) ∧ EveryItem P items
  | .map pairs => P (.map pairs) ∧ EveryPair P pairs
  | v => P v

def EveryItem (P : MessagePack → Prop) : List MessagePack → Prop
  | [] => True
  | item :: items => item.Every P ∧ EveryItem P items

def EveryPair (P : MessagePack → Prop) : List (MessagePack × MessagePack) → Prop
  | [] => True
  | (k, v) :: pairs => (k.Every P ∧ v.Every P) ∧ EveryPair P pairs

end

theorem everyItem_iff {P : MessagePack → Prop} {items : List MessagePack} :
    EveryItem P items ↔ ∀ item ∈ items, item.Every P := by
  induction items with
  | nil => simp [EveryItem]
  | cons item rest ih => simp [EveryItem, ih]

theorem everyPair_iff {P : MessagePack → Prop} {pairs : List (MessagePack × MessagePack)} :
    EveryPair P pairs ↔ ∀ pair ∈ pairs, pair.1.Every P ∧ pair.2.Every P := by
  induction pairs with
  | nil => simp [EveryPair]
  | cons pair rest ih => simp [EveryPair, ih]

/-! ## Words -/

theorem length_bytesOf (width n : Nat) : (bytesOf width n).length = width := by
  induction width generalizing n with
  | zero => rfl
  | succ width ih => simp [bytesOf, ih]

theorem bigEndian_snoc (bytes : List UInt8) (b : UInt8) :
    bigEndian (bytes ++ [b]) = bigEndian bytes * 256 + b.toNat := by
  simp [bigEndian, List.foldl_append]

theorem bigEndian_bytesOf (width n : Nat) : bigEndian (bytesOf width n) = n % 256 ^ width := by
  induction width generalizing n with
  | zero => simp [bytesOf, bigEndian, Nat.mod_one]
  | succ width ih =>
      have last : (UInt8.ofNat n).toNat = n % 256 := UInt8.toNat_ofNat'
      rw [bytesOf, bigEndian_snoc, ih, last, Nat.pow_succ, Nat.mul_comm (256 ^ width) 256,
        Nat.mod_mul]
      omega

theorem bigEndian_lt (bytes : List UInt8) : bigEndian bytes < 256 ^ bytes.length := by
  induction bytes using List.reverseRecOn with
  | nil => simp [bigEndian]
  | append_singleton front last ih =>
      have octet := last.toNat_lt
      rw [bigEndian_snoc, List.length_append, List.length_singleton, Nat.pow_succ]
      omega

theorem takeExactly_append (front rest : List UInt8) :
    takeExactly front.length (front ++ rest) = .ok (front, rest) := by
  induction front with
  | nil => rfl
  | cons b front ih =>
      rw [List.length_cons, List.cons_append, takeExactly, ih]
      rfl

theorem length_takeExactly {n : Nat} : ∀ {bytes front rest : List UInt8},
    takeExactly n bytes = .ok (front, rest) → front.length = n := by
  induction n with
  | zero =>
      intro bytes front rest taken
      rw [takeExactly] at taken
      simp [← (Prod.mk.inj (Except.ok.inj taken)).1]
  | succ n ih =>
      intro bytes front rest taken
      cases bytes with
      | nil => contradiction
      | cons b bytes =>
          obtain ⟨⟨more, later⟩, first, made⟩ := bind_eq_ok taken
          rw [← (Prod.mk.inj (Except.ok.inj made)).1, List.length_cons, ih first]

theorem wideHead_bytesOf {width n : Nat} (fits : n < 256 ^ width) (make : Nat → Head)
    (rest : List UInt8) : wideHead width make (bytesOf width n ++ rest) = .ok (make n, rest) := by
  have taken := takeExactly_append (bytesOf width n) rest
  rw [length_bytesOf] at taken
  rw [wideHead, takeNat, taken]
  simp only [ok_bind, pure_eq_ok, bigEndian_bytesOf, Nat.mod_eq_of_lt fits]

/-! ## Heads -/

def Begins (bytes : List UInt8) (found : Head) (rest : List UInt8) : Prop :=
  ∃ code more, bytes = code :: more ∧ head code more = .ok (found, rest)

theorem toNat_code {n : Nat} (octet : n < 256) : (UInt8.ofNat n).toNat = n :=
  UInt8.toNat_ofNat_of_lt' octet

/-- A code that asks for a number of some octets begins a head with those octets. -/
theorem begins_wide {code : UInt8} {width n : Nat} {make : Nat → Head}
    (wide : ∀ bytes, head code bytes = wideHead width make bytes) (fits : n < 256 ^ width)
    (rest : List UInt8) : Begins (code :: bytesOf width n ++ rest) (make n) rest :=
  ⟨code, bytesOf width n ++ rest, rfl, by rw [wide, wideHead_bytesOf fits]⟩

theorem begins_strHead {length : Nat} (short : length < lengthLimit) (rest : List UInt8) :
    Begins (strHead length ++ rest) (.str length) rest := by
  rw [lengthLimit] at short
  unfold strHead
  split
  · refine ⟨_, rest, rfl, ?_⟩
    rw [head, toNat_code (by omega), if_neg (by omega), if_neg (by omega), if_neg (by omega),
      if_pos (by omega), Nat.add_sub_cancel_left]
  split
  · exact begins_wide (fun _ => rfl) (by omega) rest
  split
  · exact begins_wide (fun _ => rfl) (by omega) rest
  · exact begins_wide (fun _ => rfl) (by omega) rest

theorem begins_listHead {length : Nat} (short : length < lengthLimit) (rest : List UInt8) :
    Begins (listHead length ++ rest) (.list length) rest := by
  rw [lengthLimit] at short
  unfold listHead
  split
  · refine ⟨_, rest, rfl, ?_⟩
    rw [head, toNat_code (by omega), if_neg (by omega), if_neg (by omega), if_pos (by omega),
      Nat.add_sub_cancel_left]
  split
  · exact begins_wide (fun _ => rfl) (by omega) rest
  · exact begins_wide (fun _ => rfl) (by omega) rest

theorem begins_mapHead {length : Nat} (short : length < lengthLimit) (rest : List UInt8) :
    Begins (mapHead length ++ rest) (.map length) rest := by
  rw [lengthLimit] at short
  unfold mapHead
  split
  · refine ⟨_, rest, rfl, ?_⟩
    rw [head, toNat_code (by omega), if_neg (by omega), if_pos (by omega),
      Nat.add_sub_cancel_left]
  split
  · exact begins_wide (fun _ => rfl) (by omega) rest
  · exact begins_wide (fun _ => rfl) (by omega) rest

theorem begins_naturalBytes {n : Nat} (fits : n < 0x10000000000000000) (rest : List UInt8) :
    Begins (naturalBytes n ++ rest) (.int n) rest := by
  unfold naturalBytes
  split
  · refine ⟨_, rest, rfl, ?_⟩
    rw [head, toNat_code (by omega), if_pos (by omega)]
  have wide {code : UInt8} {width : Nat} := @begins_wide code width n fun n => .int n
  split
  · exact wide (fun _ => rfl) (by omega) rest
  split
  · exact wide (fun _ => rfl) (by omega) rest
  split
  · exact wide (fun _ => rfl) (by omega) rest
  · exact wide (fun _ => rfl) (by omega) rest

/-- A negative number is the signed number of its complement. -/
theorem signed_complement {width : Nat} {n : Int} (negative : n < 0)
    (fits : -((256 ^ width : Nat) : Int) ≤ 2 * n) :
    (n + (256 ^ width : Nat)).toNat < 256 ^ width ∧
      signed width (n + (256 ^ width : Nat)).toNat = n := by
  have positive : 0 ≤ n + (256 ^ width : Nat) := by omega
  refine ⟨by omega, ?_⟩
  rw [signed, Int.toNat_of_nonneg positive]
  change (n + ((256 ^ width : Nat) : Int)).bmod (256 ^ width) = n
  rw [Int.add_bmod_right]
  exact Int.bmod_eq_of_le_mul_two (by omega) (by omega)

theorem begins_negativeBytes {n : Int} (negative : n < 0) (fits : -0x8000000000000000 ≤ n)
    (rest : List UInt8) : Begins (negativeBytes n ++ rest) (.int n) rest := by
  have wide {code : UInt8} {width : Nat} (opens : ∀ bytes, head code bytes =
      wideHead width (fun m => .int (signed width m)) bytes)
      (holds : -((256 ^ width : Nat) : Int) ≤ 2 * n) :
      Begins (code :: bytesOf width (n + (256 ^ width : Nat)).toNat ++ rest) (.int n) rest := by
    obtain ⟨below, back⟩ := signed_complement negative holds
    have begins := begins_wide opens below rest
    rwa [back] at begins
  unfold negativeBytes
  dsimp only
  split
  · refine ⟨_, rest, rfl, ?_⟩
    change head (UInt8.ofNat (n + 256).toNat) rest = _
    rw [head, toNat_code (by omega), if_neg (by omega), if_neg (by omega), if_neg (by omega),
      if_neg (by omega), if_pos (by omega), Int.toNat_of_nonneg (by omega), Int.add_sub_cancel]
  split
  · exact wide (fun _ => rfl) (by omega)
  split
  · exact wide (fun _ => rfl) (by omega)
  split
  · exact wide (fun _ => rfl) (by omega)
  · exact wide (fun _ => rfl) (by omega)

theorem begins_intBytes {n : Int} (form : (int n).HasForm) (rest : List UInt8) :
    Begins (intBytes n ++ rest) (.int n) rest := by
  obtain ⟨lower, upper⟩ := form
  unfold intBytes
  split
  · have begins := begins_naturalBytes (n := n.toNat) (by omega) rest
    rwa [Int.toNat_of_nonneg ‹_›] at begins
  · exact begins_negativeBytes (by omega) lower rest

/-! ## Reading what was written -/

section Lengths

theorem strHead_ne_nil (length : Nat) : strHead length ≠ [] := by
  unfold strHead
  repeat' split
  all_goals simp

theorem listHead_ne_nil (length : Nat) : listHead length ≠ [] := by
  unfold listHead
  repeat' split
  all_goals simp

theorem mapHead_ne_nil (length : Nat) : mapHead length ≠ [] := by
  unfold mapHead
  repeat' split
  all_goals simp

theorem intBytes_ne_nil (n : Int) : intBytes n ≠ [] := by
  unfold intBytes naturalBytes negativeBytes
  repeat' split
  all_goals simp [bytesOf]

theorem length_lt_append {front : List UInt8} (nonempty : front ≠ []) (rest : List UInt8) :
    rest.length < (front ++ rest).length := by
  have := List.length_pos_iff.mpr nonempty
  rw [List.length_append]
  omega

mutual

theorem length_lt_write (v : MessagePack) (rest : List UInt8) :
    rest.length < (write v rest).length := by
  match v with
  | .nil | .bool true | .bool false | .other => simp [write]
  | .int n =>
    rw [write]
    exact length_lt_append (intBytes_ne_nil n) rest
  | .str s =>
    rw [write, strBytes]
    exact length_lt_append (by simp [strHead_ne_nil]) rest
  | .list items =>
    rw [write]
    exact Nat.lt_of_le_of_lt (length_le_writeItems items rest)
      (length_lt_append (listHead_ne_nil _) _)
  | .map pairs =>
    rw [write]
    exact Nat.lt_of_le_of_lt (length_le_writePairs pairs rest)
      (length_lt_append (mapHead_ne_nil _) _)

theorem length_le_writeItems (items : List MessagePack) (rest : List UInt8) :
    rest.length ≤ (writeItems items rest).length := by
  match items with
  | [] => simp [writeItems]
  | item :: items =>
    rw [writeItems]
    exact Nat.le_trans (length_le_writeItems items rest) (Nat.le_of_lt (length_lt_write item _))

theorem length_le_writePairs (pairs : List (MessagePack × MessagePack)) (rest : List UInt8) :
    rest.length ≤ (writePairs pairs rest).length := by
  match pairs with
  | [] => simp [writePairs]
  | (k, v) :: pairs =>
    rw [writePairs, writePair]
    exact Nat.le_trans (length_le_writePairs pairs rest)
      (Nat.le_of_lt (Nat.lt_trans (length_lt_write v _) (length_lt_write k _)))

end

end Lengths

def valueAfter (steps : Nat) : Head → List UInt8 → Except Malformed (MessagePack × List UInt8)
  | .nil, bytes => .ok (.nil, bytes)
  | .bool b, bytes => .ok (.bool b, bytes)
  | .int n, bytes => .ok (.int n, bytes)
  | .str length, bytes => do
    let (front, rest) ← takeExactly length bytes
    return (.str ⟨front⟩, rest)
  | .other length, bytes => do
    let (_, rest) ← takeExactly length bytes
    return (.other, rest)
  | .list length, bytes => do
    let (items, rest) ← values steps length bytes
    return (.list items, rest)
  | .map length, bytes => do
    let (pairs, rest) ← entries steps length bytes
    return (.map pairs, rest)

theorem value_cons (steps : Nat) (code : UInt8) (bytes : List UInt8) :
    value (steps + 1) (code :: bytes) =
      head code bytes >>= fun found => valueAfter steps found.1 found.2 := by
  rw [value]
  cases head code bytes with
  | error e => rfl
  | ok found =>
      obtain ⟨found, more⟩ := found
      cases found <;> rfl

theorem Begins.value_eq {bytes rest : List UInt8} {found : Head} (begins : Begins bytes found rest)
    (steps : Nat) : value (steps + 1) bytes = valueAfter steps found rest := by
  obtain ⟨code, more, rfl, opened⟩ := begins
  rw [value_cons, opened, ok_bind]

-- The steps that are left bound the octets that are left, twice: once for the values and once for
-- the lists of values that they are in.
mutual

theorem value_write {v : MessagePack} (form : v.Every HasForm) {rest : List UInt8} {steps : Nat}
    (enough : 2 * (write v rest).length ≤ steps + 1 + 2 * rest.length) :
    value steps (write v rest) = .ok (v, rest) := by
  have longer := length_lt_write v rest
  cases steps with
  | zero => omega
  | succ steps =>
    match v with
    | .nil | .bool true | .bool false => rfl
    | .other => exact form.elim
    | .int n =>
      rw [write, (begins_intBytes form rest).value_eq, valueAfter]
    | .str s =>
      rw [write, strBytes, List.append_assoc, (begins_strHead form _).value_eq, valueAfter]
      rw [Text.size, takeExactly_append, ok_bind]
      rfl
    | .list items =>
      have inside := length_lt_append (listHead_ne_nil items.length) (writeItems items rest)
      rw [write] at enough ⊢
      rw [(begins_listHead form.1 _).value_eq, valueAfter,
        values_writeItems form.2 (by omega), ok_bind]
      rfl
    | .map pairs =>
      have inside := length_lt_append (mapHead_ne_nil pairs.length) (writePairs pairs rest)
      rw [write] at enough ⊢
      rw [(begins_mapHead form.1 _).value_eq, valueAfter,
        entries_writePairs form.2 (by omega), ok_bind]
      rfl

theorem values_writeItems {items : List MessagePack} (forms : EveryItem HasForm items)
    {rest : List UInt8} {steps : Nat}
    (enough : 2 * (writeItems items rest).length ≤ steps + 2 * rest.length) :
    values steps items.length (writeItems items rest) = .ok (items, rest) := by
  match items with
  | [] => cases steps <;> rfl
  | item :: items =>
    rw [writeItems] at enough ⊢
    have longer := length_lt_write item (writeItems items rest)
    have later := length_le_writeItems items rest
    cases steps with
    | zero => omega
    | succ steps =>
      rw [List.length_cons, values, value_write forms.1 (by omega), ok_bind]
      simp only
      rw [values_writeItems forms.2 (by omega), ok_bind]
      rfl

theorem entries_writePairs {pairs : List (MessagePack × MessagePack)}
    (forms : EveryPair HasForm pairs) {rest : List UInt8} {steps : Nat}
    (enough : 2 * (writePairs pairs rest).length ≤ steps + 2 * rest.length) :
    entries steps pairs.length (writePairs pairs rest) = .ok (pairs, rest) := by
  match pairs with
  | [] => cases steps <;> rfl
  | (k, v) :: pairs =>
    rw [writePairs, writePair] at enough ⊢
    have key := length_lt_write k (write v (writePairs pairs rest))
    have held := length_lt_write v (writePairs pairs rest)
    have later := length_le_writePairs pairs rest
    cases steps with
    | zero => omega
    | succ steps =>
      rw [List.length_cons, entries, value_write forms.1.1 (by omega), ok_bind]
      simp only
      rw [value_write forms.1.2 (by omega), ok_bind]
      simp only
      rw [entries_writePairs forms.2 (by omega), ok_bind]
      rfl

end

/-- A value is read back from its octets. -/
theorem read_bytes {v : MessagePack} (form : v.Every HasForm) : read v.bytes = .ok v := by
  rw [read, bytes, value_write form (by simp only [List.length_nil]; omega), ok_bind]
  rfl

/-! ## What can be read -/

def Head.Short : Head → Prop
  | .str length | .list length | .map length => length < lengthLimit
  | .nil | .bool _ | .int _ | .other _ => True

theorem short_wideHead {width : Nat} {make : Nat → Head} {bytes rest : List UInt8} {found : Head}
    (opened : wideHead width make bytes = .ok (found, rest))
    (short : ∀ n < 256 ^ width, (make n).Short) : found.Short := by
  obtain ⟨⟨n, later⟩, taken, made⟩ := bind_eq_ok opened
  obtain ⟨⟨front, after⟩, octets, number⟩ := bind_eq_ok taken
  rw [← (Prod.mk.inj (Except.ok.inj made)).1, ← (Prod.mk.inj (Except.ok.inj number)).1]
  exact short _ (length_takeExactly octets ▸ bigEndian_lt front)

theorem short_head {code : UInt8} {bytes rest : List UInt8} {found : Head}
    (opened : head code bytes = .ok (found, rest)) : found.Short := by
  have octet := code.toNat_lt
  have direct {h : Head} (same : (Except.ok (h, bytes) : Except Malformed _) = .ok (found, rest))
      (short : h.Short) : found.Short :=
    (Prod.mk.inj (Except.ok.inj same)).1 ▸ short
  have below {m n : Nat} (less : m ≤ n) (small : n < lengthLimit) : m < lengthLimit :=
    Nat.lt_of_le_of_lt less small
  unfold head at opened
  dsimp only at opened
  split at opened
  · exact direct opened trivial
  split at opened
  · exact direct opened (below (Nat.sub_le _ _) (by rw [lengthLimit]; omega))
  split at opened
  · exact direct opened (below (Nat.sub_le _ _) (by rw [lengthLimit]; omega))
  split at opened
  · exact direct opened (below (Nat.sub_le _ _) (by rw [lengthLimit]; omega))
  split at opened
  · exact direct opened trivial
  split at opened
  any_goals exact short_wideHead opened fun n less => Nat.lt_of_lt_of_le less (by decide)
  any_goals exact short_wideHead opened fun _ _ => trivial
  any_goals exact direct opened trivial
  contradiction

mutual

theorem hasHead_value {steps : Nat} {bytes rest : List UInt8} {v : MessagePack}
    (run : value steps bytes = .ok (v, rest)) : v.Every HasHead := by
  match steps, bytes with
  | 0, _ => simp [value] at run
  | _ + 1, [] => simp [value] at run
  | steps + 1, code :: bytes =>
    rw [value_cons] at run
    obtain ⟨⟨found, more⟩, opened, run⟩ := bind_eq_ok run
    have short := short_head opened
    cases found with
    | nil | bool b | int n => exact (Prod.mk.inj (Except.ok.inj run)).1 ▸ trivial
    | other length =>
      obtain ⟨⟨_, _⟩, _, made⟩ := bind_eq_ok run
      exact (Prod.mk.inj (Except.ok.inj made)).1 ▸ trivial
    | str length =>
      obtain ⟨⟨front, _⟩, taken, made⟩ := bind_eq_ok run
      rw [← (Prod.mk.inj (Except.ok.inj made)).1]
      rw [← length_takeExactly taken] at short
      exact short
    | list length =>
      obtain ⟨⟨items, _⟩, read, made⟩ := bind_eq_ok run
      rw [← (Prod.mk.inj (Except.ok.inj made)).1]
      obtain ⟨rfl, each⟩ := hasHead_values read
      exact ⟨short, each⟩
    | map length =>
      obtain ⟨⟨pairs, _⟩, read, made⟩ := bind_eq_ok run
      rw [← (Prod.mk.inj (Except.ok.inj made)).1]
      obtain ⟨rfl, each⟩ := hasHead_entries read
      exact ⟨short, each⟩

theorem hasHead_values {steps n : Nat} {bytes rest : List UInt8} {items : List MessagePack}
    (run : values steps n bytes = .ok (items, rest)) :
    n = items.length ∧ EveryItem HasHead items := by
  match steps, n with
  | _, 0 =>
    rw [values] at run
    simp [← (Prod.mk.inj (Except.ok.inj run)).1, EveryItem]
  | 0, _ + 1 => simp [values] at run
  | steps + 1, n + 1 =>
    rw [values] at run
    obtain ⟨⟨v, more⟩, first, run⟩ := bind_eq_ok run
    obtain ⟨⟨vs, _⟩, later, made⟩ := bind_eq_ok run
    rw [← (Prod.mk.inj (Except.ok.inj made)).1]
    obtain ⟨count, each⟩ := hasHead_values later
    exact ⟨by rw [count, List.length_cons], hasHead_value first, each⟩

theorem hasHead_entries {steps n : Nat} {bytes rest : List UInt8}
    {pairs : List (MessagePack × MessagePack)}
    (run : entries steps n bytes = .ok (pairs, rest)) :
    n = pairs.length ∧ EveryPair HasHead pairs := by
  match steps, n with
  | _, 0 =>
    rw [entries] at run
    simp [← (Prod.mk.inj (Except.ok.inj run)).1, EveryPair]
  | 0, _ + 1 => simp [entries] at run
  | steps + 1, n + 1 =>
    rw [entries] at run
    obtain ⟨⟨k, more⟩, key, run⟩ := bind_eq_ok run
    obtain ⟨⟨v, after⟩, held, run⟩ := bind_eq_ok run
    obtain ⟨⟨ps, _⟩, later, made⟩ := bind_eq_ok run
    rw [← (Prod.mk.inj (Except.ok.inj made)).1]
    obtain ⟨count, each⟩ := hasHead_entries later
    exact ⟨by rw [count, List.length_cons], ⟨hasHead_value key, hasHead_value held⟩, each⟩

end

/-- Every length in a value that was read has a head. -/
theorem hasHead_of_read {bytes : List UInt8} {v : MessagePack} (run : read bytes = .ok v) :
    v.Every HasHead := by
  obtain ⟨⟨_, _⟩, read, made⟩ := bind_eq_ok run
  exact Except.ok.inj made ▸ hasHead_value read

end LiteralHoist.MessagePack
