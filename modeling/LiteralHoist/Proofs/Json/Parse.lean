import LiteralHoist.Json.Parse
import LiteralHoist.Proofs.Json.Scan

/-!
# Reading what was written

A value is written as a sequence of tokens, between which only blanks stand.  The parser puts the
tokens of a value together to the value, as long as the containers in it do not nest too deeply, and
those of which they do are the values that are not written.
-/

set_option autoImplicit false

namespace LiteralHoist.Json

mutual

/-- Texts are made of characters, and numbers are integers. -/
def Plain : Json → Prop
  | .num text => ∃ n : Int, text = Text.ofString (toString n)
  | .str s => s.IsUnicode
  | .arr items => PlainItems items
  | .obj members => PlainMembers members
  | .null | .bool _ => True

def PlainItems : List Json → Prop
  | [] => True
  | item :: items => item.Plain ∧ PlainItems items

def PlainMembers : List (Text × Json) → Prop
  | [] => True
  | (key, v) :: members => (key.IsUnicode ∧ v.Plain) ∧ PlainMembers members

end

theorem plainItems_iff {items : List Json} :
    PlainItems items ↔ ∀ item ∈ items, item.Plain := by
  induction items with
  | nil => simp [PlainItems]
  | cons item rest ih => simp [PlainItems, ih]

theorem plainMembers_iff {members : List (Text × Json)} :
    PlainMembers members ↔ ∀ m ∈ members, m.1.IsUnicode ∧ m.2.Plain := by
  induction members with
  | nil => simp [PlainMembers]
  | cons m rest ih => simp [PlainMembers, ih]

mutual

/-- The number of containers that are open at once in a value. -/
def depth : Json → Nat
  | .arr items => depthItems items + 1
  | .obj members => depthMembers members + 1
  | .null | .bool _ | .num _ | .str _ => 0

def depthItems : List Json → Nat
  | [] => 0
  | item :: items => max item.depth (depthItems items)

def depthMembers : List (Text × Json) → Nat
  | [] => 0
  | (_, v) :: members => max v.depth (depthMembers members)

end

mutual

def tokensBefore : Json → List Token → List Token
  | .null, rest => .null :: rest
  | .bool Bool.true, rest => .true :: rest
  | .bool Bool.false, rest => .false :: rest
  | .num text, rest => .num text :: rest
  | .str s, rest => .str s :: rest
  | .arr [], rest => .openArray :: .closeArray :: rest
  | .arr (item :: items), rest =>
    .openArray :: tokensBefore item (itemTokens items (.closeArray :: rest))
  | .obj [], rest => .openObject :: .closeObject :: rest
  | .obj ((key, v) :: members), rest =>
    .openObject :: .str key :: .colon ::
      tokensBefore v (memberTokens members (.closeObject :: rest))

def itemTokens : List Json → List Token → List Token
  | [], rest => rest
  | item :: items, rest => .comma :: tokensBefore item (itemTokens items rest)

def memberTokens : List (Text × Json) → List Token → List Token
  | [], rest => rest
  | (key, v) :: members, rest =>
    .comma :: .str key :: .colon :: tokensBefore v (memberTokens members rest)

end

/-! ## Cutting -/

theorem scan_newLine (level : Nat) (rest : List Char) :
    scan .between (spelled (newLine level ++ rest)) = scan .between (spelled rest) := by
  have tabs : ∀ n, scan .between (spelled (List.replicate n '\t' ++ rest)) =
      scan .between (spelled rest) := by
    intro n
    induction n with
    | zero => rfl
    | succ n ih =>
        rw [List.replicate_succ, List.cons_append, spelled_cons (by decide)]
        exact ih
  rw [newLine, List.cons_append, spelled_cons (by decide)]
  exact tabs level

theorem delimited_newLine (level : Nat) (rest : List Char) : Delimited (newLine level ++ rest) :=
  ⟨'\n', _, rfl, .inr rfl⟩

theorem delimited_itemLines (level : Nat) (items : List Json) {rest : List Char}
    (delimited : Delimited rest) : Delimited (itemLines level items rest) := by
  cases items with
  | nil => simpa [itemLines] using delimited
  | cons item items => exact ⟨',', _, by rw [itemLines], .inl rfl⟩

theorem delimited_membersLines (level : Nat) (members : List (Text × Json)) {rest : List Char}
    (delimited : Delimited rest) : Delimited (membersLines level members rest) := by
  cases members with
  | nil => simpa [membersLines] using delimited
  | cons member members => exact ⟨',', _, by rw [membersLines], .inl rfl⟩

mutual

/-- What is written for a value is cut into the tokens of the value. -/
theorem scan_lines (v : Json) (level : Nat) (plain : v.Plain) (rest : List Char)
    (delimited : Delimited rest) :
    scan .between (spelled (lines level v rest)) =
      tokensBefore v (scan .between (spelled rest)) := by
  match v with
  | .null =>
    simp only [lines, tokensBefore]
    rw [spelled_cons (by decide), spelled_cons (by decide), spelled_cons (by decide),
      spelled_cons (by decide)]
    rfl
  | .bool Bool.true =>
    simp only [lines, tokensBefore]
    rw [spelled_cons (by decide), spelled_cons (by decide), spelled_cons (by decide),
      spelled_cons (by decide)]
    rfl
  | .bool Bool.false =>
    simp only [lines, tokensBefore]
    rw [spelled_cons (by decide), spelled_cons (by decide), spelled_cons (by decide),
      spelled_cons (by decide), spelled_cons (by decide)]
    rfl
  | .num text =>
    obtain ⟨n, rfl⟩ := plain
    simp only [lines, tokensBefore]
    exact scan_integer n delimited
  | .str s =>
    simp only [lines, tokensBefore]
    rw [spelled_append, scan_quotedString plain]
  | .arr [] =>
    simp only [lines, tokensBefore]
    rw [spelled_cons (by decide), spelled_cons (by decide)]
    rfl
  | .arr (item :: items) =>
    obtain ⟨first, others⟩ := plain
    have inner : Delimited (newLine level ++ ']' :: rest) := delimited_newLine level _
    simp only [lines, tokensBefore]
    rw [spelled_cons (by decide)]
    simp only [scan_between, opening]
    rw [scan_newLine, scan_lines item (level + 1) first _ (delimited_itemLines _ _ inner),
      scan_itemLines items (level + 1) others _ inner, scan_newLine, spelled_cons (by decide)]
    rfl
  | .obj [] =>
    simp only [lines, tokensBefore]
    rw [spelled_cons (by decide), spelled_cons (by decide)]
    rfl
  | .obj ((key, v) :: members) =>
    obtain ⟨⟨name, first⟩, others⟩ := plain
    have inner : Delimited (newLine level ++ '\x7d' :: rest) := delimited_newLine level _
    simp only [lines, memberLines, tokensBefore]
    rw [spelled_cons (by decide)]
    simp only [scan_between, opening]
    rw [scan_newLine, spelled_append, scan_quotedString name, spelled_cons (by decide),
      spelled_cons (by decide)]
    simp only [scan_between, opening]
    rw [scan_lines v (level + 1) first _ (delimited_membersLines _ _ inner),
      scan_membersLines members (level + 1) others _ inner, scan_newLine,
      spelled_cons (by decide)]
    rfl

theorem scan_itemLines (items : List Json) (level : Nat) (plain : PlainItems items)
    (rest : List Char) (delimited : Delimited rest) :
    scan .between (spelled (itemLines level items rest)) =
      itemTokens items (scan .between (spelled rest)) := by
  match items with
  | [] => rw [itemLines, itemTokens]
  | item :: items =>
    obtain ⟨first, others⟩ := plain
    rw [itemLines, itemTokens, spelled_cons (by decide)]
    simp only [scan_between, opening]
    rw [scan_newLine, scan_lines item level first _ (delimited_itemLines _ _ delimited),
      scan_itemLines items level others _ delimited]

theorem scan_membersLines (members : List (Text × Json)) (level : Nat)
    (plain : PlainMembers members) (rest : List Char) (delimited : Delimited rest) :
    scan .between (spelled (membersLines level members rest)) =
      memberTokens members (scan .between (spelled rest)) := by
  match members with
  | [] => rw [membersLines, memberTokens]
  | (key, v) :: members =>
    obtain ⟨⟨name, first⟩, others⟩ := plain
    rw [membersLines, memberLines, memberTokens, spelled_cons (by decide)]
    simp only [scan_between, opening]
    rw [scan_newLine, spelled_append, scan_quotedString name, spelled_cons (by decide),
      spelled_cons (by decide)]
    simp only [scan_between, opening]
    rw [scan_lines v level first _ (delimited_membersLines _ _ delimited),
      scan_membersLines members level others _ delimited]

end

theorem tokens_print {v : Json} (plain : v.Plain) :
    tokens v.print.octets = tokensBefore v [] := by
  have cut := scan_lines v 0 plain ['\n'] ⟨'\n', [], rfl, .inr rfl⟩
  exact cut

/-! ## Putting together -/

/-- Where the first item may be missing, a value is read like any other. -/
theorem parseTokens_firstItem (v : Json) (opened : List Open) (depth : Nat) (rest : List Token) :
    parseTokens opened depth .firstItem (tokensBefore v rest) =
      parseTokens (.arr [] :: opened) depth .value (tokensBefore v rest) := by
  match v with
  | .null | .bool Bool.true | .bool Bool.false | .num _ | .str _ | .arr [] | .arr (_ :: _)
  | .obj [] | .obj (_ :: _) => simp only [tokensBefore, parseTokens, step]; rfl

theorem deliver_arr (v : Json) (items : List Json) (outer : List Open) :
    deliver v (.arr items :: outer) = (outer, .afterItem (v :: items)) :=
  rfl

theorem deliver_obj (v : Json) (members : List (Text × Json)) (key : Text) (outer : List Open) :
    deliver v (.obj members key :: outer) = (outer, .afterMember ((key, v) :: members)) :=
  rfl

mutual

/-- The tokens of a value give the value to the container that waits for it. -/
theorem parseTokens_value (v : Json) (opened : List Open) (depth : Nat)
    (shallow : depth + v.depth ≤ maxDepth) (rest : List Token) :
    parseTokens opened depth .value (tokensBefore v rest) =
      parseTokens (deliver v opened).1 depth (deliver v opened).2 rest := by
  match v with
  | .null | .bool Bool.true | .bool Bool.false | .num _ | .str _ =>
    simp only [tokensBefore, parseTokens, step, startValue, Token.value?]
  | .arr [] =>
    have room : depth < maxDepth := by simp only [Json.depth] at shallow; omega
    simp only [tokensBefore, parseTokens, step, startValue, if_pos room, close,
      Nat.add_sub_cancel]
  | .arr (item :: items) =>
    simp only [Json.depth, depthItems] at shallow
    have room : depth < maxDepth := by omega
    simp only [tokensBefore]
    rw [parseTokens]
    simp only [step, startValue, if_pos room]
    rw [parseTokens_firstItem, parseTokens_value item _ _ (by omega), deliver_arr,
      parseTokens_items items [item] _ _ (by omega), parseTokens]
    simp [step, close]
  | .obj [] =>
    have room : depth < maxDepth := by simp only [Json.depth] at shallow; omega
    simp only [tokensBefore, parseTokens, step, startValue, if_pos room, close,
      Nat.add_sub_cancel]
  | .obj ((key, v) :: members) =>
    simp only [Json.depth, depthMembers] at shallow
    have room : depth < maxDepth := by omega
    simp only [tokensBefore]
    rw [parseTokens]
    simp only [step, startValue, if_pos room]
    rw [parseTokens]
    simp only [step]
    rw [parseTokens]
    simp only [step]
    rw [parseTokens_value v _ _ (by omega), deliver_obj,
      parseTokens_members members [(key, v)] _ _ (by omega), parseTokens]
    simp [step, close]

theorem parseTokens_items (items before : List Json) (opened : List Open) (depth : Nat)
    (shallow : depth + depthItems items ≤ maxDepth) (rest : List Token) :
    parseTokens opened depth (.afterItem before) (itemTokens items rest) =
      parseTokens opened depth (.afterItem (items.reverse ++ before)) rest := by
  match items with
  | [] => rfl
  | item :: items =>
    simp only [depthItems] at shallow
    rw [itemTokens, parseTokens]
    simp only [step]
    rw [parseTokens_value item _ _ (by omega), deliver_arr,
      parseTokens_items items _ _ _ (by omega)]
    simp

theorem parseTokens_members (members before : List (Text × Json)) (opened : List Open)
    (depth : Nat) (shallow : depth + depthMembers members ≤ maxDepth) (rest : List Token) :
    parseTokens opened depth (.afterMember before) (memberTokens members rest) =
      parseTokens opened depth (.afterMember (members.reverse ++ before)) rest := by
  match members with
  | [] => rfl
  | (key, v) :: members =>
    simp only [depthMembers] at shallow
    rw [memberTokens, parseTokens]
    simp only [step]
    rw [parseTokens]
    simp only [step]
    rw [parseTokens]
    simp only [step]
    rw [parseTokens_value v _ _ (by omega), deliver_obj,
      parseTokens_members members _ _ _ (by omega)]
    simp

end

/-- A value that was written is read back, unless its containers nest too deeply. -/
theorem parse_print {v : Json} (plain : v.Plain) (shallow : v.depth ≤ maxDepth) :
    parse v.print.octets = .ok v := by
  rw [parse, tokens_print plain, parseTokens_value v [] 0 (by omega)]
  rfl

mutual

theorem tooDeep?_eq_none_iff (v : Json) {opened : Nat} (room : opened ≤ maxDepth) :
    tooDeep? opened v = none ↔ opened + v.depth ≤ maxDepth := by
  match v with
  | .null | .bool _ | .num _ | .str _ => simpa [tooDeep?, Json.depth] using room
  | .arr items =>
    rw [tooDeep?, Json.depth]
    split
    · rw [tooDeepItem?_eq_none_iff items (by omega)]
      omega
    · simp only [reduceCtorEq, false_iff]
      omega
  | .obj members =>
    rw [tooDeep?, Json.depth]
    split
    · rw [tooDeepMember?_eq_none_iff members (by omega)]
      omega
    · simp only [reduceCtorEq, false_iff]
      omega

theorem tooDeepItem?_eq_none_iff (items : List Json) {opened : Nat} (room : opened ≤ maxDepth) :
    tooDeepItem? opened items = none ↔ opened + depthItems items ≤ maxDepth := by
  match items with
  | [] => simpa [tooDeepItem?, depthItems] using room
  | item :: items =>
    have first := tooDeep?_eq_none_iff item room
    have others := tooDeepItem?_eq_none_iff items room
    rw [tooDeepItem?, depthItems]
    cases deep : tooDeep? opened item with
    | none =>
      rw [deep] at first
      simp only [true_iff] at first
      rw [others]
      omega
    | some bracket =>
      rw [deep] at first
      simp only [reduceCtorEq, false_iff] at first ⊢
      omega

theorem tooDeepMember?_eq_none_iff (members : List (Text × Json)) {opened : Nat}
    (room : opened ≤ maxDepth) :
    tooDeepMember? opened members = none ↔ opened + depthMembers members ≤ maxDepth := by
  match members with
  | [] => simpa [tooDeepMember?, depthMembers] using room
  | (_, v) :: members =>
    have first := tooDeep?_eq_none_iff v room
    have others := tooDeepMember?_eq_none_iff members room
    rw [tooDeepMember?, depthMembers]
    cases deep : tooDeep? opened v with
    | none =>
      rw [deep] at first
      simp only [true_iff] at first
      rw [others]
      omega
    | some bracket =>
      rw [deep] at first
      simp only [reduceCtorEq, false_iff] at first ⊢
      omega

end

theorem write_of_depth_le {v : Json} (shallow : v.depth ≤ maxDepth) : v.write = .ok v.print := by
  have room := (tooDeep?_eq_none_iff v (Nat.zero_le maxDepth)).mpr (by omega)
  rw [write, room]

end LiteralHoist.Json
