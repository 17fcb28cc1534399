import LiteralHoist.Proofs.Document.Plain
import LiteralHoist.Proofs.Document.Rewritten
import LiteralHoist.Proofs.MessagePack.Octets

/-!
# Lengths

MessagePack has heads for texts and lists below a limit.  A document that was read from MessagePack
keeps to it, and so does the wire form of every document that keeps to it.  Documents that were
read from JSON need not keep to it, and then they are not the document of any MessagePack octets.
-/

set_option autoImplicit false

namespace LiteralHoist.Document

open LiteralHoist.Source LiteralHoist.MessagePack

def ShortText (s : Text) : Prop :=
  s.size < lengthLimit

instance (s : Text) : Decidable (ShortText s) :=
  inferInstanceAs (Decidable (_ < _))

structure WireField.Short (f : WireField) : Prop where
  texts : f.Texts ShortText
  mods : f.mods.length < lengthLimit

structure Attributes.Short (a : Attributes) : Prop where
  texts : a.Texts ShortText
  words : ∀ k, (a.words k).length < lengthLimit
  mods : ∀ f, a.field = some f → f.mods.length < lengthLimit

structure ShortNode (n : Node) : Prop where
  texts : ∀ s ∈ n.form.texts, ShortText s
  lists : ∀ p ∈ listChildren n.form, p.2.length < lengthLimit
  imports : ∀ d, n.form = .unit d → d.imports.length < lengthLimit

/-- The texts and lists of a document have heads. -/
structure HasHeads (doc : Document) : Prop where
  version : ShortText doc.version
  units : doc.trees.length < lengthLimit
  nodes : ∀ t ∈ doc.trees, ∀ id n, t.Holds id n → ShortNode n

theorem zero_lt_lengthLimit : 0 < lengthLimit := by
  decide

/-! ## Writing -/

theorem length_words (m : Modifiers) : m.words.length < lengthLimit := by
  have few : m.words.length ≤ Modifier.all.length := by
    rw [Modifiers.words, List.length_map]
    exact List.length_filter_le _ _
  exact Nat.lt_of_le_of_lt few (by decide)

theorem keywords_short : Keywords ShortText where
  empty := zero_lt_lengthLimit
  kind k := by cases k <;> decide
  literal k := by cases k <;> decide
  mods m s member := by
    obtain ⟨k, _, rfl⟩ := List.mem_map.mp member
    cases k <;> decide

theorem words_nodeAttributes {n : Node}
    (imports : ∀ d, n.form = .unit d → d.imports.length < lengthLimit) (k : WordsKey) :
    ((nodeAttributes n).words k).length < lengthLimit := by
  obtain ⟨pos, form⟩ := n
  cases form with
  | unit d =>
      cases k with
      | imports => exact imports d rfl
      | mods => exact zero_lt_lengthLimit
  | classDecl d | method d | varDecl d =>
      cases k with
      | imports => exact zero_lt_lengthLimit
      | mods => exact length_words d.mods
  | _ => exact zero_lt_lengthLimit

theorem mods_nodeAttributes {n : Node} {f : WireField}
    (present : (nodeAttributes n).field = some f) : f.mods.length < lengthLimit := by
  obtain ⟨pos, form⟩ := n
  cases form with
  | ident name type field | fieldAccess x name type field =>
      obtain ⟨symbol, _, rfl⟩ := Option.map_eq_some_iff.mp present
      exact length_words symbol.mods
  | _ => contradiction

theorem ShortNode.attributes {n : Node} (short : ShortNode n) : (nodeAttributes n).Short :=
  ⟨texts_nodeAttributes keywords_short short.texts, words_nodeAttributes short.imports,
    fun _ => mods_nodeAttributes⟩

/-! ## Reading -/

theorem short_unpackText {v : MessagePack} {s : Text} (heads : v.Every HasHead)
    (success : unpackText v = .ok s) : ShortText s := by
  cases v with
  | nil => exact Except.ok.inj success ▸ zero_lt_lengthLimit
  | str text => exact Except.ok.inj success ▸ heads
  | _ => contradiction

theorem short_unpackWords {old ws : List Text} {v : MessagePack} (heads : v.Every HasHead)
    (texts : ∀ s ∈ old, ShortText s) (length : old.length < lengthLimit)
    (success : unpackWords old v = .ok ws) :
    (∀ s ∈ ws, ShortText s) ∧ ws.length < lengthLimit := by
  cases v with
  | nil => exact Except.ok.inj success ▸ ⟨texts, length⟩
  | list items =>
      obtain ⟨count, each⟩ := heads
      have read := forall₂_of_mapM_eq_ok success
      refine ⟨fun s member => ?_, read.length_eq ▸ count⟩
      obtain ⟨item, inside, made⟩ := exists_of_forall₂ read.flip member
      exact short_unpackText (everyItem_iff.mp each item inside) made
  | _ => contradiction

theorem WireField.Short.empty : ({} : WireField).Short :=
  ⟨⟨zero_lt_lengthLimit, zero_lt_lengthLimit, by simp, zero_lt_lengthLimit⟩, zero_lt_lengthLimit⟩

theorem short_unpackFieldKey {f f' : WireField} {key : FieldKey} {v : MessagePack}
    (short : f.Short) (heads : v.Every HasHead) (success : f.unpackKey key v = .ok f') :
    f'.Short := by
  obtain ⟨⟨owner, name, mods, type⟩, length⟩ := short
  cases key with
  | owner =>
      obtain ⟨s, read, made⟩ := bind_eq_ok success
      exact Except.ok.inj made ▸ ⟨⟨short_unpackText heads read, name, mods, type⟩, length⟩
  | name =>
      obtain ⟨s, read, made⟩ := bind_eq_ok success
      exact Except.ok.inj made ▸ ⟨⟨owner, short_unpackText heads read, mods, type⟩, length⟩
  | mods =>
      obtain ⟨ws, read, made⟩ := bind_eq_ok success
      obtain ⟨texts, count⟩ := short_unpackWords heads mods length read
      exact Except.ok.inj made ▸ ⟨⟨owner, name, texts, type⟩, count⟩
  | type =>
      obtain ⟨s, read, made⟩ := bind_eq_ok success
      exact Except.ok.inj made ▸ ⟨⟨owner, name, mods, short_unpackText heads read⟩, length⟩

theorem short_unpackFieldEntries (entries : List Entry) : ∀ {f f' : WireField}, f.Short →
    (∀ entry ∈ entries, entry.2.Every HasHead) → f.unpackEntries entries = .ok f' → f'.Short := by
  induction entries with
  | nil => exact fun short _ success => Except.ok.inj success ▸ short
  | cons entry rest ih =>
      obtain ⟨k, v⟩ := entry
      intro f f' short heads success
      obtain ⟨here, later⟩ := List.forall_mem_cons.mp heads
      rw [WireField.unpackEntries] at success
      obtain ⟨key, _, success⟩ := bind_eq_ok success
      split at success
      · exact ih short later success
      · obtain ⟨g, read, success⟩ := bind_eq_ok success
        exact ih (short_unpackFieldKey short here read) later success

theorem short_unpackFieldAll (keys : List FieldKey) : ∀ (vs : List MessagePack)
    {f f' : WireField}, f.Short → (∀ v ∈ vs, v.Every HasHead) → f.unpackAll keys vs = .ok f' →
    f'.Short := by
  induction keys with
  | nil =>
      intro vs f f' short _ success
      cases vs with
      | nil => exact Except.ok.inj success ▸ short
      | cons v vs => contradiction
  | cons key keys ih =>
      intro vs f f' short heads success
      cases vs with
      | nil => contradiction
      | cons v vs =>
          obtain ⟨here, later⟩ := List.forall_mem_cons.mp heads
          obtain ⟨g, read, success⟩ := bind_eq_ok success
          exact ih vs (short_unpackFieldKey short here read) later success

theorem short_unpackField {old new : Option WireField} {v : MessagePack} (heads : v.Every HasHead)
    (short : ∀ f, old = some f → f.Short) (success : unpackField old v = .ok new) :
    ∀ f, new = some f → f.Short := by
  have start : (old.getD {}).Short := by
    cases old with
    | none => exact WireField.Short.empty
    | some f => exact short f rfl
  match v with
  | .nil => simp [← Except.ok.inj success]
  | .map entries =>
      obtain ⟨f, read, rfl⟩ := map_eq_ok success
      rintro _ ⟨rfl⟩
      have values := fun entry member => (everyPair_iff.mp heads.2 entry member).2
      exact short_unpackFieldEntries entries start values read
  | .list [] =>
      obtain rfl := Except.ok.inj success
      rintro _ ⟨rfl⟩
      exact WireField.Short.empty
  | .list (item :: items) =>
      obtain ⟨f, read, rfl⟩ := map_eq_ok success
      rintro _ ⟨rfl⟩
      exact short_unpackFieldAll _ _ start (everyItem_iff.mp heads.2) read
  | .bool _ | .int _ | .str _ | .other => contradiction

theorem short_unpackKey {a a' : Attributes} {key : Key} {v : MessagePack}
    (heads : v.Every HasHead) (short : a.Short) (success : a.unpackKey key v = .ok a') :
    a'.Short := by
  obtain ⟨texts, words, mods⟩ := short
  cases key with
  | text k =>
      obtain ⟨s, read, made⟩ := bind_eq_ok success
      exact Except.ok.inj made ▸ ⟨texts.setText k (short_unpackText heads read), words, mods⟩
  | number k =>
      obtain ⟨n, _, made⟩ := bind_eq_ok success
      exact Except.ok.inj made ▸ ⟨texts.setNumber k n, words, mods⟩
  | words k =>
      obtain ⟨ws, read, made⟩ := bind_eq_ok success
      obtain ⟨each, count⟩ := short_unpackWords heads (texts.words k) (words k) read
      refine Except.ok.inj made ▸ ⟨texts.setWords k each, fun k' => ?_, mods⟩
      simp only [Attributes.setWords]
      split
      · exact count
      · exact words k'
  | field =>
      obtain ⟨field, read, made⟩ := bind_eq_ok success
      have each := short_unpackField heads
        (fun f present => ⟨texts.field f present, mods f present⟩) read
      obtain rfl := Except.ok.inj made
      exact ⟨⟨texts.text, texts.words, fun f present => (each f present).texts⟩, words,
        fun f present => (each f present).mods⟩
  | many slot | one slot => exact Except.ok.inj success ▸ ⟨texts, words, mods⟩

theorem inherits_short :
    Inherits (Every HasHead) ShortText Attributes.Short (· < lengthLimit) where
  items heads := ⟨heads.1, everyItem_iff.mp heads.2⟩
  entries heads entry member := (everyPair_iff.mp heads.2 entry member).2
  text := short_unpackText
  attributes := short_unpackKey
  noText := zero_lt_lengthLimit
  noAttributes := ⟨⟨fun _ => zero_lt_lengthLimit, by simp, by simp⟩, fun _ => zero_lt_lengthLimit,
    by simp⟩
  noItems := zero_lt_lengthLimit

/-! ## Trees -/

theorem texts_of_checkedField {T : Text → Prop} {a : Attributes} (texts : a.Texts T)
    {field : Option FieldSymbol} (checked : a.checkedField = .ok field) :
    ∀ s ∈ field.toList.flatMap FieldSymbol.texts, T s := by
  rw [Attributes.checkedField] at checked
  cases symbol : a.field with
  | none =>
      simp only [symbol] at checked
      simp [← Except.ok.inj checked]
  | some f =>
      obtain ⟨owner, name, _, type⟩ := texts.field f symbol
      simp only [symbol] at checked
      obtain ⟨mods, _, made⟩ := bind_eq_ok checked
      simp [← Except.ok.inj made, FieldSymbol.texts, owner, name, type]

/-- The texts of a form are among those of the attributes that describe it. -/
theorem texts_of_describes {T : Text → Prop} {a : Attributes} (texts : a.Texts T) (assign : T "=")
    {form : Form} (described : a.Describes form) : ∀ s ∈ form.texts, T s := by
  have text := texts.text
  cases form with
  | unit d =>
      obtain ⟨name, package, imports⟩ := described
      simpa [Form.texts, name, package, imports, text] using texts.words .imports
  | assign op target value =>
      rw [Form.texts, List.forall_mem_singleton,
        show op = if a.text .op = "" then Text.ofString "=" else a.text .op from described]
      split
      · exact assign
      · exact text .op
  | ident name type field | fieldAccess x name type field =>
      obtain ⟨checked, rfl, rfl⟩ := described
      exact List.forall_mem_cons.mpr ⟨text .name, List.forall_mem_cons.mpr ⟨text .type,
        texts_of_checkedField texts checked⟩⟩
  | _ => simp_all [Form.texts, Attributes.Describes]

theorem length_addList (ws : List (Option Wire)) : ∀ {allowed : List Kind} {t t' : Tree}
    {ids : List NodeId}, addList ws allowed t = .ok (ids, t') → ids.length ≤ ws.length := by
  induction ws with
  | nil =>
      intro allowed t t' ids run
      rw [addList] at run
      simp [← (Prod.mk.inj (Except.ok.inj run)).1]
  | cons w rest ih =>
      intro allowed t t' ids run
      cases w with
      | none =>
          rw [addList] at run
          exact Nat.le_succ_of_le (ih run)
      | some w =>
          rw [addList] at run
          obtain ⟨id, u, _, run⟩ := adding_bind run
          obtain ⟨more, v, later, run⟩ := adding_bind run
          rw [← (Prod.mk.inj (Except.ok.inj run)).1]
          exact Nat.succ_le_succ (ih later)

theorem filling_of_listChildren {form : Form} {p : ListSlot × List NodeId}
    (member : p ∈ listChildren form) : ∃ kinds, .list p.1 kinds p.2 ∈ fillings form := by
  cases form <;> simp_all [listChildren, fillings]
  all_goals rcases member with rfl | rfl <;> simp

/-- A node whose wire form keeps to the limit does so as well. -/
theorem Added.shortNode {w : Wire} {allowed : List Kind} {t u : Tree} {form : Form}
    (added : Added w allowed t form u) (short : w.attrs.Short)
    (lengths : ∀ slot, (w.many slot).length < lengthLimit) (pos : Position) :
    ShortNode ⟨pos, form⟩ := by
  refine ⟨texts_of_describes short.texts (by decide) added.describes, fun p member => ?_,
    fun d same => ?_⟩
  · obtain ⟨kinds, filled⟩ := filling_of_listChildren member
    obtain ⟨v, v', adds⟩ := added.places.adds _ filled
    exact Nat.lt_of_le_of_lt (length_addList _ adds) (lengths p.1)
  · obtain rfl : form = .unit d := same
    obtain ⟨_, _, imports⟩ := added.describes
    exact imports ▸ short.words .imports

def ShortNodes (t : Tree) : Prop :=
  ∀ id n, t.Holds id n → ShortNode n

theorem hereditary_shortNodes :
    Hereditary
      (fun w _ t _ t' => w.Throughout Attributes.Short (· < lengthLimit) → ShortNodes t →
        ShortNodes t')
      (fun ws _ t _ t' => (∀ w, some w ∈ ws → w.Throughout Attributes.Short (· < lengthLimit)) →
        ShortNodes t → ShortNodes t') where
  nil _ _ _ short := short
  skip again every := again fun w member => every w (by simp [member])
  cons _ first _ later every short :=
    later (fun w member => every w (by simp [member])) (first (every _ (by simp)) short)
  node {w allowed t form u} added lists singles every short := by
    obtain ⟨here, lengths, below, alone⟩ := every.inv
    have above := added.places.preserves
      (fun slot kinds v ids v' run => lists slot kinds v ids v' run (below slot))
      (fun slot c kinds v x v' child run =>
        singles slot c kinds v x v' child run (alone slot c child)) short
    intro id n held
    rcases Tree.holds_of_push held with rfl | old
    · exact added.shortNode here lengths _
    · exact above id n old

theorem shortNodes_of_treeOfUnit {u : Option Wire} {t : Tree} (success : treeOfUnit u = .ok t)
    (short : ∀ w, u = some w → w.Throughout Attributes.Short (· < lengthLimit)) :
    ShortNodes t := by
  obtain ⟨built, root, added, rfl⟩ := treeOfUnit_eq success
  have start : ShortNodes {} := fun id n held =>
    absurd (Nat.le_zero.mp held.le_size) held.ne_zero
  rcases addOption_cases added with ⟨_, _, rfl⟩ | ⟨w, present, run⟩
  · exact start
  · exact hereditary_shortNodes.addNode w [.unit] {} root built run (short w present) start

/-! ## Documents -/

/-- A document that was read from MessagePack keeps to the limit. -/
theorem hasHeads_of_read {bytes : List UInt8} {doc : Document}
    (success : Document.read .messagePack bytes = .ok doc) : HasHeads doc := by
  obtain ⟨d, wire, made⟩ := bind_eq_ok success
  have short : d.Throughout ShortText Attributes.Short (· < lengthLimit) := by
    simp only [Document.readWire] at wire
    split at wire
    · contradiction
    · rename_i v read
      split at wire
      · rename_i unpacked
        exact Except.ok.inj wire ▸
          throughout_unpack inherits_short (hasHead_of_read read) unpacked
      · contradiction
  obtain ⟨_, version, trees⟩ := ofWire_iff.mp made
  refine ⟨version ▸ short.version, trees.length_eq ▸ short.length, fun t member => ?_⟩
  obtain ⟨u, listed, ofUnit⟩ := exists_of_forall₂ trees.flip member
  exact shortNodes_of_treeOfUnit ofUnit fun w present => short.units w (present ▸ listed)

/-- The wire form of a document that keeps to the limit does so as well. -/
theorem throughout_toWire {doc : Document} {w : WireDocument} (heads : HasHeads doc)
    (fits : ∀ t ∈ doc.trees, PositionsFit t) (written : doc.toWire = .ok w) :
    w.Throughout ShortText (fun a => a.Short ∧ a.Fits) (· < lengthLimit) := by
  obtain ⟨version, units⟩ := toWire_inv written
  refine ⟨?_, units.length_eq ▸ heads.units, fun c member => ?_⟩
  · rw [version]
    split
    · decide
    · exact heads.version
  · obtain ⟨t, inDoc, unit⟩ := exists_of_forall₂ units.flip member
    refine throughout_wireNode (fun id n held => ?_) zero_lt_lengthLimit
      (fun id n held => (heads.nodes t inDoc id n held).lists) unit
    obtain ⟨line, col⟩ := fits t inDoc id n held
    exact ⟨(heads.nodes t inDoc id n held).attributes, fits_nodeAttributes line col⟩

end LiteralHoist.Document
