import LiteralHoist.Proofs.Document.Lengths

/-!
# The wire form in MessagePack

Unpacking the MessagePack form of a node whose numbers fit gives the node back.  If its texts and
lists have heads, the form is one that is read back from its octets: all its maps are short, for
they have at most one entry for each key.
-/

set_option autoImplicit false

namespace LiteralHoist.Document

open LiteralHoist.MessagePack

theorem unpackNumber_int {n : Int} (fits : fits64 n = true) : unpackNumber (.int n) = .ok n := by
  simp only [fits64, Bool.and_eq_true, decide_eq_true_eq] at fits
  rw [unpackNumber, Int.bmod_eq_of_le (by omega) (by omega)]

theorem unpackWords_words (old ws : List Text) : unpackWords old (packWords ws) = .ok ws := by
  have each := mapM_eq_ok (unpackText ∘ MessagePack.str) id ws fun _ _ => rfl
  rw [packWords, unpackWords, List.mapM_map, each, List.map_id]

theorem namedKey_field (key : FieldKey) :
    namedKey FieldKey.all FieldKey.label (.str key.label) = .ok (some key) := by
  cases key <;> decide

theorem unpackEntries_mods {owner name : Text} (ms : List Text) (rest : List Entry) :
    WireField.unpackEntries { owner, name } (wordsEntry FieldKey.mods.label ms ++ rest) =
      WireField.unpackEntries { owner, name, mods := ms } rest := by
  by_cases empty : ms = []
  · rw [wordsEntry, if_pos empty, empty]
    rfl
  · rw [wordsEntry, if_neg empty, List.singleton_append, WireField.unpackEntries, namedKey_field]
    simp only [WireField.unpackKey, unpackWords_words, ok_bind, pure_eq_ok]

theorem unpackEntries_type {owner name : Text} {mods : List Text} (type : Text) :
    WireField.unpackEntries { owner, name, mods } (textEntry FieldKey.type.label type) =
      .ok { owner, name, mods, type } := by
  by_cases empty : type = ""
  · rw [textEntry, if_pos empty, empty]
    rfl
  · rw [textEntry, if_neg empty, WireField.unpackEntries, namedKey_field]
    rfl

theorem unpackField_pack (f : WireField) : unpackField none f.pack = .ok (some f) := by
  have run : WireField.unpackEntries {} ([(.str FieldKey.owner.label, .str f.owner),
      (.str FieldKey.name.label, .str f.name)] ++ (wordsEntry FieldKey.mods.label f.mods ++
        textEntry FieldKey.type.label f.type)) = .ok f := by
    rw [List.cons_append, WireField.unpackEntries, namedKey_field]
    simp only [WireField.unpackKey, unpackText, ok_bind, pure_eq_ok]
    rw [List.singleton_append, WireField.unpackEntries, namedKey_field]
    simp only [WireField.unpackKey, unpackText, ok_bind, pure_eq_ok]
    rw [unpackEntries_mods, unpackEntries_type]
  rw [WireField.pack, unpackField, Option.getD_none, List.append_assoc, run]
  rfl

def Wire.entries (w : Wire) (key : Key) : List Entry :=
  match key with
  | .many slot => listEntry key.label (Wire.packList (w.many slot))
  | .one slot => presentEntry key.label (Wire.packOption (w.one slot))
  | key => w.attrs.entry key

theorem pack_eq (w : Wire) : w.pack = .map (Key.all.flatMap w.entries) := by
  obtain ⟨attrs, many, one⟩ := w
  rw [Wire.pack]
  rfl

theorem packList_eq (ws : List (Option Wire)) : Wire.packList ws = ws.map Wire.packOption := by
  induction ws with
  | nil => rfl
  | cons w rest ih => rw [Wire.packList, ih, List.map_cons]

inductive Packed (w : Wire) : Key → MessagePack → Prop where
  | text (k : TextKey) : Packed w (.text k) (.str (w.attrs.text k))
  | number (k : NumberKey) : Packed w (.number k) (.int (w.attrs.number k))
  | words (k : WordsKey) : Packed w (.words k) (packWords (w.attrs.words k))
  | field {f : WireField} (present : w.attrs.field = some f) : Packed w .field f.pack
  | many (slot : ListSlot) : Packed w (.many slot) (.list (Wire.packList (w.many slot)))
  | one {slot : Slot} {c : Wire} (present : w.one slot = some c) : Packed w (.one slot) c.pack

section Entries
attribute [local simp] Wire.entries Wire.value Key.blank Attributes.entry textEntry wordsEntry
  listEntry presentEntry Wire.packList Wire.packOption

/-- A key is left out, or it has one entry. -/
theorem entries_cases (w : Wire) (key : Key) :
    (w.entries key = [] ∧ w.value key = key.blank) ∨
      ∃ v, w.entries key = [(.str key.label, v)] ∧ Packed w key v := by
  cases key with
  | text k =>
      by_cases empty : w.attrs.text k = ""
      · cases k with
        | kind => exact .inr ⟨_, rfl, .text _⟩
        | _ => exact .inl (by simp [empty])
      · refine .inr ⟨_, ?_, .text k⟩
        cases k <;> simp [empty]
  | number k =>
      by_cases zero : w.attrs.number k = 0
      · exact .inl (by simp [zero])
      · exact .inr ⟨_, by simp only [Wire.entries, Attributes.entry, if_neg zero], .number k⟩
  | words k =>
      by_cases empty : w.attrs.words k = []
      · exact .inl (by simp [empty])
      · exact .inr ⟨_, by simp [empty], .words k⟩
  | field =>
      cases present : w.attrs.field with
      | none => exact .inl (by simp [present])
      | some f => exact .inr ⟨_, by simp [present], .field present⟩
  | many slot =>
      cases list : w.many slot with
      | nil => exact .inl (by simp [list])
      | cons first rest => exact .inr ⟨_, by simp [list], .many slot⟩
  | one slot =>
      cases child : w.one slot with
      | none => exact .inl (by simp [child])
      | some c => exact .inr ⟨_, by simp [child, pack_eq], .one child⟩

end Entries

theorem namedKey_label (key : Key) :
    namedKey Key.all Key.label (.str key.label) = .ok (some key) := by
  have found : ∀ key ∈ Key.all, namedKey Key.all Key.label (.str key.label) = .ok (some key) := by
    decide +kernel
  exact found key key.mem_all

def UnpacksBack (w : Option Wire) : Prop :=
  ∃ d, unpackNode none (Wire.packOption w) = .ok d ∧ Draft.finishOption d = w

theorem unpacksBack_none : UnpacksBack none :=
  ⟨none, rfl, rfl⟩

theorem unpackNodeList_back {ws : List (Option Wire)} (each : ∀ w ∈ ws, UnpacksBack w) :
    ∃ ds, unpackNodeList [] (Wire.packList ws) = .ok ds ∧ Draft.finishList ds = ws := by
  induction ws with
  | nil => exact ⟨[], rfl, rfl⟩
  | cons w rest ih =>
      obtain ⟨d, run, back⟩ := each w (by simp)
      obtain ⟨ds, runRest, backRest⟩ := ih fun v member => each v (by simp [member])
      refine ⟨d :: ds, ?_, ?_⟩
      · rw [Wire.packList, unpackNodeList]
        simp only [List.headD_nil, List.tail_nil, run, runRest, ok_bind, pure_eq_ok]
      · rw [Draft.finishList, back, backRest]

theorem unpackNodes_back {ws : List (Option Wire)} (each : ∀ w ∈ ws, UnpacksBack w) :
    ∃ ds, unpackNodes [] [] (.list (Wire.packList ws)) = .ok (ds, []) ∧
      Draft.finishList ds = ws := by
  obtain ⟨ds, run, back⟩ := unpackNodeList_back each
  refine ⟨ds, ?_, back⟩
  simp only [unpackNodes, List.append_nil, run, ok_bind, pure_eq_ok, List.drop_nil]

section Step
variable {w : Wire} {done : List Key} {d : Draft} {key : Key}

/-- Unpacking an entry that was packed for a key. -/
theorem Begun.unpackEntry (begun : Begun w done d) (fresh : key ∉ done) (fits : w.attrs.Fits)
    (lists : ∀ slot, ∀ c ∈ w.many slot, UnpacksBack c) (singles : ∀ slot, UnpacksBack (w.one slot))
    {v : MessagePack} (packed : Packed w key v) (rest : List Entry) :
    ∃ d', unpackEntries d ((.str key.label, v) :: rest) = unpackEntries d' rest ∧
      Begun w (key :: done) d' := by
  rw [unpackEntries, namedKey_label]
  cases packed with
  | text k =>
      exact ⟨d.setAttrs (d.attrs.setText k (w.attrs.text k)) d.pastWords, rfl,
        begun.read (value_setText d · k _ _) begun.pastWords begun.past⟩
  | number k =>
      refine ⟨d.setAttrs (d.attrs.setNumber k (w.attrs.number k)) d.pastWords, ?_,
        begun.read (value_setNumber d · k _ _) begun.pastWords begun.past⟩
      simp only [Attributes.unpackKey, unpackNumber_int (fits k), ok_bind, pure_eq_ok]
  | words k =>
      refine ⟨d.setAttrs (d.attrs.setWords k (w.attrs.words k)) d.pastWords, ?_,
        begun.read (value_setWords d · k _ _) begun.pastWords begun.past⟩
      simp only [Attributes.unpackKey, unpackWords_words, ok_bind, pure_eq_ok]
  | @field f present =>
      refine ⟨d.setAttrs { d.attrs with field := some f } d.pastWords, ?_,
        begun.read (fun k => ?_) begun.pastWords begun.past⟩
      · simp only [Attributes.unpackKey, begun.no_field fresh, unpackField_pack, ok_bind,
          pure_eq_ok]
      · rw [value_setField, Wire.value, present]
  | many slot =>
      obtain ⟨ds, run, back⟩ := unpackNodes_back (lists slot)
      refine ⟨d.setMany slot (ds, []), ?_, begun.read (fun k => ?_) begun.pastWords fun slot' => ?_⟩
      · simp only [begun.no_list fresh, begun.past, run, ok_bind]
      · rw [value_setMany, back, Wire.value]
      · change (if slot' = slot then [] else d.past slot') = []
        simp [begun.past]
  | @one slot c present =>
      obtain ⟨dc, run, back⟩ := singles slot
      rw [present, Wire.packOption] at run
      refine ⟨d.setOne slot dc, ?_, begun.read (fun k => ?_) begun.pastWords begun.past⟩
      · simp only [begun.no_child fresh, run, ok_bind]
      · rw [value_setOne, back, Wire.value]

/-- Unpacking all that was packed for a key. -/
theorem Begun.unpackKey (begun : Begun w done d) (fresh : key ∉ done) (fits : w.attrs.Fits)
    (lists : ∀ slot, ∀ c ∈ w.many slot, UnpacksBack c) (singles : ∀ slot, UnpacksBack (w.one slot))
    (rest : List Entry) :
    ∃ d', unpackEntries d (w.entries key ++ rest) = unpackEntries d' rest ∧
      Begun w (key :: done) d' := by
  rcases entries_cases w key with ⟨omitted, nothing⟩ | ⟨v, single, packed⟩
  · exact ⟨d, by rw [omitted, List.nil_append], begun.skip fresh nothing⟩
  · rw [single]
    exact begun.unpackEntry fresh fits lists singles packed rest

end Step

/-- Unpacking the MessagePack form of a node gives the node back if all numbers fit. -/
theorem unpacksBack_of_fits {w : Wire} (fits : w.Every Attributes.Fits) : UnpacksBack (some w) := by
  induction fits with
  | @node attrs many one here _ _ inLists inSingles =>
      have lists : ∀ slot, ∀ c ∈ many slot, UnpacksBack c := by
        intro slot c member
        cases c with
        | none => exact unpacksBack_none
        | some c => exact inLists slot c member
      have singles : ∀ slot, UnpacksBack (one slot) := by
        intro slot
        cases child : one slot with
        | none => exact unpacksBack_none
        | some c => exact inSingles slot c child
      obtain ⟨d, run, whole⟩ := finish_keys (w := .node attrs many one) (fun _ => rfl)
        fun begun fresh => begun.unpackKey fresh here lists singles
      refine ⟨some d, ?_, by rw [Draft.finishOption, whole]⟩
      rw [Wire.packOption, pack_eq, unpackNode, Option.getD_none, run]
      rfl

theorem length_entries (w : Wire) (key : Key) : (w.entries key).length ≤ 1 := by
  rcases entries_cases w key with ⟨omitted, _⟩ | ⟨v, single, _⟩
  · simp [omitted]
  · simp [single]

theorem length_flatMap_entries (w : Wire) (keys : List Key) :
    (keys.flatMap w.entries).length ≤ keys.length := by
  induction keys with
  | nil => simp
  | cons key rest ih =>
      have first := length_entries w key
      simp only [List.flatMap_cons, List.length_append, List.length_cons]
      omega

theorem Key.shortText_label (key : Key) : ShortText key.label := by
  have short : ∀ key ∈ Key.all, ShortText key.label := by decide +kernel
  exact short key key.mem_all

theorem hasForm_packWords {ws : List Text} (texts : ∀ s ∈ ws, ShortText s)
    (length : ws.length < lengthLimit) : (packWords ws).Every HasForm := by
  refine ⟨by simpa [HasForm, HasHead] using length, everyItem_iff.mpr fun item member => ?_⟩
  obtain ⟨s, listed, rfl⟩ := List.mem_map.mp member
  exact texts s listed

theorem WireField.Short.hasForm {f : WireField} (short : f.Short) : f.pack.Every HasForm := by
  obtain ⟨⟨owner, name, mods, type⟩, length⟩ := short
  have label : ∀ key : FieldKey, ShortText key.label := by
    intro key
    cases key <;> decide
  refine ⟨?_, everyPair_iff.mpr fun entry member => ?_⟩
  · have few : (wordsEntry FieldKey.mods.label f.mods ++
        textEntry FieldKey.type.label f.type).length ≤ 2 := by
      rw [wordsEntry, textEntry]
      split <;> split <;> simp
    simp only [HasForm, HasHead, List.length_append, List.length_cons, List.length_nil,
      lengthLimit] at few ⊢
    omega
  · simp only [List.mem_append, List.mem_cons, List.not_mem_nil, or_false, wordsEntry,
      textEntry] at member
    rcases member with ((rfl | rfl) | isMods) | isType
    · exact ⟨label .owner, owner⟩
    · exact ⟨label .name, name⟩
    · split at isMods
      · simp at isMods
      · rw [List.mem_singleton.mp isMods]
        exact ⟨label .mods, hasForm_packWords mods length⟩
    · split at isType
      · simp at isType
      · rw [List.mem_singleton.mp isType]
        exact ⟨label .type, type⟩

theorem hasForm_packList {ws : List (Option Wire)} (length : ws.length < lengthLimit)
    (each : ∀ w, some w ∈ ws → w.pack.Every HasForm) :
    (MessagePack.list (Wire.packList ws)).Every HasForm := by
  rw [packList_eq]
  refine ⟨by simpa [HasForm, HasHead] using length, everyItem_iff.mpr fun item member => ?_⟩
  obtain ⟨w, listed, rfl⟩ := List.mem_map.mp member
  cases w with
  | none => trivial
  | some w => exact each w listed

/-- The MessagePack form of a node whose numbers fit and whose texts and lists have heads is one
that is read back from its octets. -/
theorem hasForm_pack {w : Wire}
    (throughout : w.Throughout (fun a => a.Short ∧ a.Fits) (· < lengthLimit)) :
    w.pack.Every HasForm := by
  induction throughout with
  | @node attrs many one here lengths _ _ inLists inSingles =>
      obtain ⟨⟨texts, words, mods⟩, fits⟩ := here
      rw [pack_eq]
      refine ⟨?_, everyPair_iff.mpr fun entry member => ?_⟩
      · exact Nat.lt_of_le_of_lt (length_flatMap_entries _ _) (by decide)
      · obtain ⟨key, _, isEntry⟩ := List.mem_flatMap.mp member
        rcases entries_cases (.node attrs many one) key with ⟨omitted, _⟩ | ⟨v, single, packed⟩
        · simp [omitted] at isEntry
        · rw [single, List.mem_singleton] at isEntry
          rw [isEntry]
          refine ⟨key.shortText_label, ?_⟩
          cases packed with
          | text k => exact texts.text k
          | number k =>
              have fit := fits k
              simp only [fits64, Bool.and_eq_true, decide_eq_true_eq] at fit
              exact ⟨fit.1, fit.2.trans (by decide)⟩
          | words k => exact hasForm_packWords (texts.words k) (words k)
          | field present =>
              exact WireField.Short.hasForm ⟨texts.field _ present, mods _ present⟩
          | many slot => exact hasForm_packList (lengths slot) (inLists slot)
          | one present => exact inSingles _ _ present

theorem unpack_pack {d : WireDocument} (fits : ∀ w, some w ∈ d.units → w.Every Attributes.Fits) :
    WireDocument.unpack d.pack = .ok d := by
  have version : namedKey DocumentKey.all DocumentKey.label (.str DocumentKey.version.label) =
      .ok (some .version) := by decide
  have units : namedKey DocumentKey.all DocumentKey.label (.str DocumentKey.units.label) =
      .ok (some .units) := by decide
  have each : ∀ w ∈ d.units, UnpacksBack w := by
    intro w member
    cases w with
    | none => exact unpacksBack_none
    | some w => exact unpacksBack_of_fits (fits w member)
  obtain ⟨ds, run, back⟩ := unpackNodes_back each
  have list : unpackNodes [] []
      (if d.units.isEmpty then .nil else .list (Wire.packList d.units)) = .ok (ds, []) := by
    cases units' : d.units with
    | nil =>
        rw [units'] at run
        exact run
    | cons first rest =>
        rw [units'] at run
        exact run
  rw [WireDocument.pack, WireDocument.unpack, DocumentDraft.unpackEntries, version]
  simp only [DocumentDraft.unpackKey, unpackText, ok_bind, pure_eq_ok,
    DocumentDraft.unpackEntries, units, list]
  exact congrArg Except.ok (congrArg (WireDocument.mk d.version) back)

theorem hasForm_packDocument {d : WireDocument}
    (throughout : d.Throughout ShortText (fun a => a.Short ∧ a.Fits) (· < lengthLimit)) :
    d.pack.Every HasForm := by
  obtain ⟨version, length, each⟩ := throughout
  have label : ∀ key : DocumentKey, ShortText key.label := by
    intro key
    cases key <;> decide
  have head : 2 < lengthLimit := by decide
  refine ⟨head, ⟨label .version, version⟩, ⟨label .units, ?_⟩, trivial⟩
  split
  · trivial
  · exact hasForm_packList length fun w member => hasForm_pack (each w member)

end LiteralHoist.Document
