import LiteralHoist.Proofs.Document.WireForm
import LiteralHoist.Proofs.Json.Parse
import LiteralHoist.Proofs.Source.Arena

/-!
# The wire form in JSON

Reading the JSON form of a plain node gives the node back.  The members come in the order of the
keys, each key at most once, so every value is read over nothing.
-/

set_option autoImplicit false

namespace LiteralHoist.Document

theorem digitsValue?_toDigits (n : Nat) : digitsValue? (Nat.toDigits 10 n) = some n := by
  have digits : ∀ c ∈ Nat.toDigits 10 n, c.isDigit = true := fun c member =>
    Nat.isDigit_of_mem_toDigits (by decide) (by decide) member
  have value : (Nat.toDigits 10 n).foldl (fun n c => n * 10 + (c.toNat - '0'.toNat)) 0 = n := by
    simp only [Nat.mul_comm _ 10]
    exact Nat.ofDigitChars_ten_toDigits
  have all : (Nat.toDigits 10 n).all Char.isDigit = true := List.all_eq_true.mpr digits
  have present : (Nat.toDigits 10 n).isEmpty = false := by simp [Nat.toDigits_ne_nil]
  rw [digitsValue?, value, all, present]
  rfl

theorem integer?_toString (n : Int) : integer? (Text.ofString (toString n)) = some n := by
  rw [integer?, Text.ofString, Text.chars_ofChars, Json.toList_toString]
  cases n with
  | ofNat m =>
      have value := digitsValue?_toDigits m
      split
      · rename_i cs minus
        simp only at minus
        have digit : ('-').isDigit = true :=
          Nat.isDigit_of_mem_toDigits (b := 10) (n := m) (by decide) (by decide) (by simp [minus])
        exact absurd digit (by decide)
      · rw [value]
        rfl
  | negSucc m =>
      simp only [digitsValue?_toDigits]
      rfl

theorem readNumber_toString {n : Int} (fits : fits64 n = true) (old : Int) :
    readNumber old (.num (Text.ofString (toString n))) = .ok n := by
  simp only [readNumber, integer?_toString, fits, if_true]

theorem readWordList_words (ws : List Text) : readWordList [] (ws.map .str) = .ok ws := by
  induction ws with
  | nil => rfl
  | cons w rest ih => simp [readWordList, readText, ih, ok_bind, pure_eq_ok]

theorem readWords_words (ws : List Text) : readWords [] [] (jsonWords ws) = .ok (ws, []) := by
  cases ws with
  | nil => rfl
  | cons w rest =>
      have items := readWordList_words (w :: rest)
      simp only [List.map_cons] at items
      simp [jsonWords, readWords, items, ok_bind, pure_eq_ok]

theorem readFieldMembers_mods {owner name : Text} (ms : List Text) (rest : List (Text × Json)) :
    readFieldMembers ({ owner, name }, []) (wordsMember FieldKey.mods.label ms ++ rest) =
      readFieldMembers ({ owner, name, mods := ms }, []) rest := by
  have key : findKey FieldKey.all FieldKey.label FieldKey.mods.label = some .mods := by decide
  by_cases empty : ms = []
  · rw [wordsMember, if_pos empty, empty]
    rfl
  · rw [wordsMember, if_neg empty, List.singleton_append, readFieldMembers, key]
    simp only [readFieldMember, readWords_words, ok_bind, pure_eq_ok]

theorem readFieldMembers_type {owner name : Text} {mods : List Text} (type : Text) :
    readFieldMembers ({ owner, name, mods }, []) (textMember FieldKey.type.label type) =
      .ok ({ owner, name, mods, type }, []) := by
  have key : findKey FieldKey.all FieldKey.label FieldKey.type.label = some .type := by decide
  by_cases empty : type = ""
  · rw [textMember, if_pos empty, empty]
    rfl
  · rw [textMember, if_neg empty, readFieldMembers, key]
    rfl

theorem readField_toJson (f : WireField) : readField none [] f.toJson = .ok (some f, []) := by
  have owner : findKey FieldKey.all FieldKey.label FieldKey.owner.label = some .owner := by decide
  have name : findKey FieldKey.all FieldKey.label FieldKey.name.label = some .name := by decide
  have run : readFieldMembers ({}, []) ([(FieldKey.owner.label, .str f.owner),
      (FieldKey.name.label, .str f.name)] ++ (wordsMember FieldKey.mods.label f.mods ++
        textMember FieldKey.type.label f.type)) = .ok (f, []) := by
    rw [List.cons_append, readFieldMembers, owner]
    simp only [readFieldMember, readText, ok_bind, pure_eq_ok]
    rw [List.singleton_append, readFieldMembers, name]
    simp only [readFieldMember, readText, ok_bind, pure_eq_ok]
    rw [readFieldMembers_mods, readFieldMembers_type]
  rw [WireField.toJson, readField, Option.getD_none, List.append_assoc, run]
  rfl

def Wire.members (w : Wire) (key : Key) : List (Text × Json) :=
  match key with
  | .many slot => listMember key.label (Wire.listJson (w.many slot))
  | .one slot => presentMember key.label (Wire.optionJson (w.one slot))
  | key => w.attrs.member key

theorem toJson_eq (w : Wire) : w.toJson = .obj (Key.all.flatMap w.members) := by
  obtain ⟨attrs, many, one⟩ := w
  rw [Wire.toJson]
  rfl

theorem listJson_eq (ws : List (Option Wire)) : Wire.listJson ws = ws.map Wire.optionJson := by
  induction ws with
  | nil => rfl
  | cons w rest ih => rw [Wire.listJson, ih, List.map_cons]

/-- What is written for a node at a key that is not left out. -/
inductive Written (w : Wire) : Key → Json → Prop where
  | text (k : TextKey) : Written w (.text k) (.str (w.attrs.text k))
  | number (k : NumberKey) :
      Written w (.number k) (.num (Text.ofString (toString (w.attrs.number k))))
  | words (k : WordsKey) : Written w (.words k) (jsonWords (w.attrs.words k))
  | field {f : WireField} (present : w.attrs.field = some f) : Written w .field f.toJson
  | many (slot : ListSlot) : Written w (.many slot) (.arr (Wire.listJson (w.many slot)))
  | one {slot : Slot} {c : Wire} (present : w.one slot = some c) : Written w (.one slot) c.toJson

section Members
attribute [local simp] Wire.members Wire.value Key.blank Attributes.member textMember wordsMember
  listMember presentMember Wire.listJson Wire.optionJson

/-- A key is left out, or it has one member. -/
theorem members_cases (w : Wire) (key : Key) :
    (w.members key = [] ∧ w.value key = key.blank) ∨
      ∃ v, w.members key = [(key.label, v)] ∧ Written w key v := by
  cases key with
  | text k =>
      by_cases empty : w.attrs.text k = ""
      · cases k with
        | kind => exact .inr ⟨_, rfl, .text _⟩
        | _ => exact .inl (by simp [empty])
      · refine .inr ⟨_, ?_, .text k⟩
        cases k <;> simp [empty]
  | number k =>
      by_cases zero : w.attrs.number k = 0
      · exact .inl (by simp [zero])
      · exact .inr ⟨_, by simp only [Wire.members, Attributes.member, if_neg zero], .number k⟩
  | words k =>
      by_cases empty : w.attrs.words k = []
      · exact .inl (by simp [empty])
      · exact .inr ⟨_, by simp [empty], .words k⟩
  | field =>
      cases present : w.attrs.field with
      | none => exact .inl (by simp [present])
      | some f => exact .inr ⟨_, by simp [present], .field present⟩
  | many slot =>
      cases list : w.many slot with
      | nil => exact .inl (by simp [list])
      | cons first rest => exact .inr ⟨_, by simp [list], .many slot⟩
  | one slot =>
      cases child : w.one slot with
      | none => exact .inl (by simp [child])
      | some c => exact .inr ⟨_, by simp [child, toJson_eq], .one child⟩

end Members

theorem findKey_label (key : Key) : findKey Key.all Key.label key.label = some key := by
  have found : ∀ key ∈ Key.all, findKey Key.all Key.label key.label = some key := by
    decide +kernel
  exact found key key.mem_all

/-- Reading gives a node that may be missing back. -/
def ReadsBack (w : Option Wire) : Prop :=
  ∃ d, readNode none (Wire.optionJson w) = .ok d ∧ Draft.finishOption d = w

theorem readNodeList_back {ws : List (Option Wire)} (each : ∀ w ∈ ws, ReadsBack w) :
    ∃ ds, readNodeList [] (Wire.listJson ws) = .ok ds ∧ Draft.finishList ds = ws := by
  induction ws with
  | nil => exact ⟨[], rfl, rfl⟩
  | cons w rest ih =>
      obtain ⟨d, run, back⟩ := each w (by simp)
      obtain ⟨ds, runRest, backRest⟩ := ih fun v member => each v (by simp [member])
      refine ⟨d :: ds, ?_, ?_⟩
      · rw [Wire.listJson, readNodeList]
        simp only [List.headD_nil, List.tail_nil, run, runRest, ok_bind, pure_eq_ok]
      · rw [Draft.finishList, back, backRest]

theorem readNodes_back {ws : List (Option Wire)} (each : ∀ w ∈ ws, ReadsBack w) :
    ∃ ds, readNodes [] [] (.arr (Wire.listJson ws)) = .ok (ds, []) ∧
      Draft.finishList ds = ws := by
  obtain ⟨ds, run, back⟩ := readNodeList_back each
  cases ws with
  | nil =>
      rw [Wire.listJson, readNodeList] at run
      exact ⟨ds, by rw [Wire.listJson, readNodes, Except.ok.inj run], back⟩
  | cons w rest =>
      refine ⟨ds, ?_, back⟩
      rw [Wire.listJson] at run ⊢
      simp only [readNodes, List.append_nil, run, ok_bind, pure_eq_ok, List.drop_nil]

section Step
variable {w : Wire} {done : List Key} {d : Draft} {key : Key}

/-- Reading a member that was written for a key. -/
theorem Begun.readMember (begun : Begun w done d) (fresh : key ∉ done)
    (fits : ∀ k, fits64 (w.attrs.number k) = true)
    (lists : ∀ slot, ∀ c ∈ w.many slot, ReadsBack c) (singles : ∀ slot, ReadsBack (w.one slot))
    {v : Json} (written : Written w key v) (rest : List (Text × Json)) :
    ∃ d', readMembers d ((key.label, v) :: rest) = readMembers d' rest ∧
      Begun w (key :: done) d' := by
  rw [readMembers, findKey_label]
  cases written with
  | text k =>
      exact ⟨d.setAttrs (d.attrs.setText k (w.attrs.text k)) d.pastWords, rfl,
        begun.read (value_setText d · k _ _) begun.pastWords begun.past⟩
  | number k =>
      refine ⟨d.setAttrs (d.attrs.setNumber k (w.attrs.number k)) d.pastWords, ?_,
        begun.read (value_setNumber d · k _ _) begun.pastWords begun.past⟩
      simp only [readAttribute, readNumber_toString (fits k), ok_bind, pure_eq_ok]
  | words k =>
      refine ⟨d.setAttrs (d.attrs.setWords k (w.attrs.words k)) (d.pastWords.set k []), ?_,
        begun.read (value_setWords d · k _ _) ?_ begun.past⟩
      · simp only [readAttribute, begun.no_words fresh, begun.pastWords, readWords_words, ok_bind,
          pure_eq_ok]
      · change d.pastWords.set k [] = {}
        simp [begun.pastWords, PastWords.set]
  | @field f present =>
      refine ⟨d.setAttrs { d.attrs with field := some f } { d.pastWords with fieldMods := [] }, ?_,
        begun.read (fun k => ?_) ?_ begun.past⟩
      · simp only [readAttribute, begun.no_field fresh, begun.pastWords, readField_toJson, ok_bind,
          pure_eq_ok]
      · rw [value_setField, Wire.value, present]
      · change { d.pastWords with fieldMods := [] } = ({} : PastWords)
        rw [begun.pastWords]
  | many slot =>
      obtain ⟨ds, run, back⟩ := readNodes_back (lists slot)
      refine ⟨d.setMany slot (ds, []), ?_, begun.read (fun k => ?_) begun.pastWords fun slot' => ?_⟩
      · simp only [begun.no_list fresh, begun.past, run, ok_bind]
      · rw [value_setMany, back, Wire.value]
      · change (if slot' = slot then [] else d.past slot') = []
        simp [begun.past]
  | @one slot c present =>
      obtain ⟨dc, run, back⟩ := singles slot
      rw [present, Wire.optionJson] at run
      refine ⟨d.setOne slot dc, ?_, begun.read (fun k => ?_) begun.pastWords begun.past⟩
      · simp only [begun.no_child fresh, run, ok_bind]
      · rw [value_setOne, back, Wire.value]

/-- Reading all that was written for a key. -/
theorem Begun.readKey (begun : Begun w done d) (fresh : key ∉ done)
    (fits : ∀ k, fits64 (w.attrs.number k) = true)
    (lists : ∀ slot, ∀ c ∈ w.many slot, ReadsBack c) (singles : ∀ slot, ReadsBack (w.one slot))
    (rest : List (Text × Json)) :
    ∃ d', readMembers d (w.members key ++ rest) = readMembers d' rest ∧
      Begun w (key :: done) d' := by
  rcases members_cases w key with ⟨omitted, nothing⟩ | ⟨v, single, written⟩
  · exact ⟨d, by rw [omitted, List.nil_append], begun.skip fresh nothing⟩
  · rw [single]
    exact begun.readMember fresh fits lists singles written rest

end Step

/-- Reading the JSON form of a plain node gives the node back. -/
theorem readsBack_of_plain {w : Wire} (plain : w.Plain) : ReadsBack (some w) := by
  induction plain with
  | @node attrs many one here lists singles inLists inSingles =>
      have listsBack : ∀ slot, ∀ c ∈ (Wire.node attrs many one).many slot, ReadsBack c := by
        intro slot c member
        cases c with
        | none => exact ⟨none, rfl, rfl⟩
        | some c => exact inLists slot c member
      have singlesBack : ∀ slot, ReadsBack ((Wire.node attrs many one).one slot) := by
        intro slot
        cases child : one slot with
        | none =>
            rw [Wire.one, child]
            exact ⟨none, rfl, rfl⟩
        | some c =>
            rw [Wire.one, child]
            exact inSingles slot c child
      obtain ⟨d, run, whole⟩ := finish_keys (w := .node attrs many one) (fun _ => rfl)
        fun begun fresh => begun.readKey fresh here.number listsBack singlesBack
      refine ⟨some d, ?_, by rw [Draft.finishOption, whole]⟩
      rw [Wire.optionJson, toJson_eq, readNode, Option.getD_none, run]
      rfl

theorem Key.isUnicode_label (key : Key) : key.label.IsUnicode := by
  cases key with
  | text k => cases k <;> exact Text.isUnicode_ofString _
  | number k => cases k <;> exact Text.isUnicode_ofString _
  | words k => cases k <;> exact Text.isUnicode_ofString _
  | field => exact Text.isUnicode_ofString _
  | many slot => cases slot <;> exact Text.isUnicode_ofString _
  | one slot => cases slot <;> exact Text.isUnicode_ofString _

theorem plain_words {ws : List Text} (plain : ∀ s ∈ ws, s.IsUnicode) : (jsonWords ws).Plain := by
  simp only [jsonWords, Json.Plain, Json.plainItems_iff, List.mem_map]
  rintro _ ⟨s, member, rfl⟩
  exact plain s member

theorem WireField.Plain.toJson {f : WireField} (plain : f.Plain) : f.toJson.Plain := by
  simp only [WireField.toJson, Json.Plain, Json.plainMembers_iff, List.mem_append, List.mem_cons,
    List.not_mem_nil, or_false, wordsMember, textMember]
  rintro m (((rfl | rfl) | isMods) | isType)
  · exact ⟨Text.isUnicode_ofString _, plain.owner⟩
  · exact ⟨Text.isUnicode_ofString _, plain.name⟩
  · split at isMods
    · simp at isMods
    · rw [List.mem_singleton.mp isMods]
      exact ⟨Text.isUnicode_ofString _, plain_words plain.mods⟩
  · split at isType
    · simp at isType
    · rw [List.mem_singleton.mp isType]
      exact ⟨Text.isUnicode_ofString _, plain.type⟩

theorem plain_listJson {ws : List (Option Wire)} (plain : ∀ w, some w ∈ ws → w.toJson.Plain) :
    Json.PlainItems (Wire.listJson ws) := by
  rw [listJson_eq, Json.plainItems_iff]
  intro item member
  obtain ⟨w, inList, rfl⟩ := List.mem_map.mp member
  cases w with
  | none => trivial
  | some w => exact plain w inList

theorem Wire.Plain.toJson {w : Wire} (plain : w.Plain) : w.toJson.Plain := by
  induction plain with
  | @node attrs many one here lists singles inLists inSingles =>
      rw [toJson_eq, Json.Plain, Json.plainMembers_iff]
      intro m member
      obtain ⟨key, _, isMember⟩ := List.mem_flatMap.mp member
      rcases members_cases (.node attrs many one) key with ⟨omitted, _⟩ | ⟨v, single, written⟩
      · simp [omitted] at isMember
      · rw [single, List.mem_singleton] at isMember
        rw [isMember]
        refine ⟨key.isUnicode_label, ?_⟩
        cases written with
        | text k => exact here.text k
        | number k => exact ⟨_, rfl⟩
        | words k => exact plain_words (here.words k)
        | field present => exact (here.field _ present).toJson
        | many slot => exact plain_listJson (inLists slot)
        | one present => exact inSingles _ _ present

/-- Reading the JSON form of a document of plain units gives the document back. -/
theorem ofJson_toJson {d : WireDocument} (plain : ∀ w, some w ∈ d.units → w.Plain) :
    WireDocument.ofJson d.toJson = .ok d := by
  have version : findKey DocumentKey.all DocumentKey.label DocumentKey.version.label =
      some .version := by decide
  have units : findKey DocumentKey.all DocumentKey.label DocumentKey.units.label =
      some .units := by decide
  have each : ∀ w ∈ d.units, ReadsBack w := by
    intro w member
    cases w with
    | none => exact ⟨none, rfl, rfl⟩
    | some w => exact readsBack_of_plain (plain w member)
  obtain ⟨ds, run, back⟩ := readNodes_back each
  have list : readNodes [] [] (if d.units.isEmpty then .null else .arr (Wire.listJson d.units)) =
      .ok (ds, []) := by
    cases units' : d.units with
    | nil =>
        rw [units'] at run
        exact run
    | cons first rest =>
        rw [units'] at run
        exact run
  rw [WireDocument.toJson, WireDocument.ofJson, DocumentDraft.readMembers, version]
  simp only [readText, ok_bind, DocumentDraft.readMembers, units, list]
  exact congrArg Except.ok (congrArg (WireDocument.mk d.version) back)

theorem plain_toJson {d : WireDocument} (version : d.version.IsUnicode)
    (plain : ∀ w, some w ∈ d.units → w.Plain) : d.toJson.Plain := by
  refine ⟨⟨Text.isUnicode_ofString _, version⟩, ⟨Text.isUnicode_ofString _, ?_⟩, trivial⟩
  split
  · trivial
  · exact plain_listJson fun w member => (plain w member).toJson

end LiteralHoist.Document
