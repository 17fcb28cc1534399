import LiteralHoist.Proofs.Document.Encoded
import LiteralHoist.Proofs.Document.Positions
import LiteralHoist.Proofs.Document.WireForm

/-!
# Plain documents

A document is plain if its texts are made of characters and its positions fit in 64 bits.  So are
then the texts and numbers of its wire form, for the names and keywords that writing adds are made
of characters as well.
-/

set_option autoImplicit false

namespace LiteralHoist.Source

def FieldSymbol.texts (f : FieldSymbol) : List Text :=
  [f.owner, f.name, f.type]

def Form.texts : Form → List Text
  | .unit d => d.name :: d.package :: d.imports
  | .classDecl d => [d.name, d.fqn]
  | .method d => [d.result, d.name]
  | .varDecl d => [d.type]
  | .namedVar name _ | .annot name _ => [name]
  | .block _ | .exprStmt _ | .return _ | .ifStmt _ _ _ | .parens _ => []
  | .assign op _ _ | .unary op _ => [op]
  | .literal lit => [lit.value, lit.source, lit.type]
  | .ident name type field | .fieldAccess _ name type field =>
    name :: type :: field.toList.flatMap FieldSymbol.texts
  | .call _ name _ type => [name, type]
  | .new className _ => [className]
  | .binary op _ _ type => [op, type]

theorem Kind.isUnicode_name (k : Kind) : k.name.IsUnicode := by
  cases k <;> exact Text.isUnicode_ofString _

theorem LiteralKind.isUnicode_name (k : LiteralKind) : k.name.IsUnicode := by
  cases k <;> exact Text.isUnicode_ofString _

theorem Modifiers.isUnicode_words (m : Modifiers) : ∀ s ∈ m.words, s.IsUnicode := by
  intro s member
  obtain ⟨k, _, rfl⟩ := List.mem_map.mp member
  cases k <;> exact Text.isUnicode_ofString _

end LiteralHoist.Source

namespace LiteralHoist.Document

open LiteralHoist.Source

structure WireField.Texts (T : Text → Prop) (f : WireField) : Prop where
  owner : T f.owner
  name : T f.name
  mods : ∀ s ∈ f.mods, T s
  type : T f.type

structure Attributes.Texts (T : Text → Prop) (a : Attributes) : Prop where
  text : ∀ k, T (a.text k)
  words : ∀ k, ∀ s ∈ a.words k, T s
  field : ∀ f, a.field = some f → f.Texts T

/-- The texts that writing adds by itself have a property. -/
structure Keywords (T : Text → Prop) : Prop where
  empty : T ""
  kind : ∀ k : Kind, T k.name
  literal : ∀ k : LiteralKind, T k.name
  mods : ∀ m : Modifiers, ∀ s ∈ m.words, T s

namespace Attributes.Texts
variable {T : Text → Prop} {a : Attributes}

theorem setText (texts : a.Texts T) (key : TextKey) {s : Text} (holds : T s) :
    (a.setText key s).Texts T := by
  refine ⟨fun k => ?_, texts.words, texts.field⟩
  by_cases same : k = key
  · simpa only [Attributes.setText, if_pos same] using holds
  · simpa only [Attributes.setText, if_neg same] using texts.text k

theorem setWords (texts : a.Texts T) (key : WordsKey) {ws : List Text} (holds : ∀ s ∈ ws, T s) :
    (a.setWords key ws).Texts T := by
  refine ⟨texts.text, fun k => ?_, texts.field⟩
  by_cases same : k = key
  · simpa only [Attributes.setWords, if_pos same] using holds
  · simpa only [Attributes.setWords, if_neg same] using texts.words k

theorem setNumber (texts : a.Texts T) (key : NumberKey) (n : Int) : (a.setNumber key n).Texts T :=
  ⟨texts.text, texts.words, texts.field⟩

theorem setField (texts : a.Texts T) (keywords : Keywords T) {field : Option FieldSymbol}
    (holds : ∀ s ∈ field.toList.flatMap FieldSymbol.texts, T s) :
    ({ a with field := field.map wireField } : Attributes).Texts T := by
  refine ⟨texts.text, texts.words, fun f present => ?_⟩
  cases field with
  | none => contradiction
  | some symbol =>
      obtain rfl := Option.some.inj present
      have each : ∀ s ∈ symbol.texts, T s := by simpa using holds
      simp only [FieldSymbol.texts, List.forall_mem_cons] at each
      exact ⟨each.1, each.2.1, keywords.mods _, each.2.2.1⟩

end Attributes.Texts

/-- The texts of a written node are those of its form and keywords. -/
theorem texts_nodeAttributes {T : Text → Prop} (keywords : Keywords T) {n : Node}
    (texts : ∀ s ∈ n.form.texts, T s) : (nodeAttributes n).Texts T := by
  obtain ⟨pos, form⟩ := n
  have start : ({} : Attributes).Texts T := ⟨fun _ => keywords.empty, by simp, by simp⟩
  have base := ((start.setText .kind (keywords.kind form.kind)).setNumber .line pos.line).setNumber
    .col pos.col
  cases form <;> simp only [Form.texts, List.forall_mem_cons] at texts
  case unit d =>
    exact ((base.setText .name texts.1).setText .package texts.2.1).setWords .imports texts.2.2
  case classDecl d =>
    exact ((base.setWords .mods (keywords.mods d.mods)).setText .name texts.1).setText .fqn
      texts.2.1
  case method d =>
    exact ((base.setWords .mods (keywords.mods d.mods)).setText .result texts.1).setText .name
      texts.2.1
  case varDecl d => exact (base.setWords .mods (keywords.mods d.mods)).setText .type texts.1
  case namedVar | annot => exact base.setText .name texts.1
  case block | exprStmt | «return» | ifStmt | parens => exact base
  case assign | unary => exact base.setText .op texts.1
  case literal lit =>
    exact (((base.setText .lit (keywords.literal lit.kind)).setText .value texts.1).setText .source
      texts.2.1).setText .type texts.2.2.1
  case ident | fieldAccess =>
    exact ((base.setText .name texts.1).setText .type texts.2.1).setField keywords texts.2.2
  case call => exact (base.setText .name texts.1).setText .type texts.2.1
  case new => exact base.setText .className texts.1
  case binary => exact (base.setText .op texts.1).setText .type texts.2.1

theorem keywords_unicode : Keywords Text.IsUnicode where
  empty := Text.isUnicode_ofString _
  kind := Kind.isUnicode_name
  literal := LiteralKind.isUnicode_name
  mods := Modifiers.isUnicode_words

theorem fits_nodeAttributes {n : Node} (line : fits64 n.pos.line = true)
    (col : fits64 n.pos.col = true) : (nodeAttributes n).Fits := by
  obtain ⟨pos, form⟩ := n
  have base := (Attributes.Fits.empty.setNumber line .line).setNumber col .col
  cases form <;> exact base

/-- The texts of a node are made of characters, and its position fits in 64 bits. -/
structure PlainNode (n : Node) : Prop where
  texts : ∀ s ∈ n.form.texts, s.IsUnicode
  line : fits64 n.pos.line = true
  col : fits64 n.pos.col = true

theorem PlainNode.attributes {n : Node} (plain : PlainNode n) : (nodeAttributes n).Plain := by
  obtain ⟨text, words, field⟩ := texts_nodeAttributes keywords_unicode plain.texts
  refine ⟨text, fits_nodeAttributes plain.line plain.col, words, fun f present => ?_⟩
  obtain ⟨owner, name, mods, type⟩ := field f present
  exact ⟨owner, name, mods, type⟩

section Throughout
variable {P : Attributes → Prop} {Q : Nat → Prop} {w : Wire}

theorem Wire.Throughout.setMany (every : w.Throughout P Q) (slot : ListSlot)
    {ws : List (Option Wire)} (length : Q ws.length) (each : ∀ c, some c ∈ ws → c.Throughout P Q) :
    (w.setMany slot ws).Throughout P Q := by
  obtain ⟨here, lengths, lists, singles⟩ := every.inv
  refine .node here (fun s => ?_) (fun s => ?_) singles
  · by_cases same : s = slot
    · simpa only [if_pos same] using length
    · simpa only [if_neg same] using lengths s
  · by_cases same : s = slot
    · simpa only [if_pos same] using each
    · simpa only [if_neg same] using lists s

theorem Wire.Throughout.setOne (every : w.Throughout P Q) (slot : Slot) {child : Option Wire}
    (each : ∀ c, child = some c → c.Throughout P Q) : (w.setOne slot child).Throughout P Q := by
  obtain ⟨here, lengths, lists, singles⟩ := every.inv
  refine .node here lengths lists fun s => ?_
  by_cases same : s = slot
  · simpa only [if_pos same] using each
  · simpa only [if_neg same] using singles s

/-- What holds of a node and of all that is written below it holds throughout the wire form. -/
theorem throughout_filledWire {child : NodeId → Option Wire} {n : Node}
    (here : P (nodeAttributes n)) (none : Q 0)
    (lengths : ∀ p ∈ listChildren n.form, Q p.2.length)
    (each : ∀ x ∈ n.form.places, ∀ c, child x = some c → c.Throughout P Q) :
    (filledWire child n).Throughout P Q := by
  have start : (Wire.empty.setAttrs (nodeAttributes n)).Throughout P Q :=
    .node here (fun _ => none) (by simp [Wire.empty, Wire.many]) (by simp [Wire.empty, Wire.one])
  refine List.foldlRecOn _ _ (List.foldlRecOn _ _ start ?_) ?_
  · intro w every p listed
    refine every.setMany p.1 (by simpa using lengths p listed) fun c member => ?_
    obtain ⟨x, inside, made⟩ := List.mem_map.mp member
    exact each x (place_of_listChildren listed inside) c made
  · intro w every p single
    exact every.setOne p.1 (each p.2 (place_of_singleChildren single))

end Throughout

theorem holds_of_wireNode {t : Tree} {depth : Nat} {id : NodeId} {w : Wire}
    (run : wireNode t depth id = .ok (some w)) :
    ∃ less n, depth = less + 1 ∧ t.Holds id n := by
  cases id with
  | zero => simp [wireNode_zero] at run
  | succ id =>
      cases depth with
      | zero => contradiction
      | succ less =>
          simp only [wireNode] at run
          obtain ⟨entry, found, run⟩ := bind_eq_ok run
          cases entry with
          | none => contradiction
          | some n => exact ⟨less, n, rfl, found⟩

theorem throughout_wireNode {P : Attributes → Prop} {Q : Nat → Prop} {t : Tree}
    (here : ∀ id n, t.Holds id n → P (nodeAttributes n)) (none : Q 0)
    (lengths : ∀ id n, t.Holds id n → ∀ p ∈ listChildren n.form, Q p.2.length) :
    ∀ {depth : Nat} {id : NodeId} {w : Wire}, wireNode t depth id = .ok (some w) →
      w.Throughout P Q := by
  intro depth
  induction depth with
  | zero =>
      intro id w run
      obtain ⟨less, _, absurd, _⟩ := holds_of_wireNode run
      contradiction
  | succ depth ih =>
      intro id w run
      obtain ⟨_, n, _, held⟩ := holds_of_wireNode run
      obtain ⟨child, each, made⟩ := wireNode_inv held run
      obtain rfl := Option.some.inj made
      refine throughout_filledWire (here id n held) none (lengths id n held)
        fun x place c below => ?_
      exact ih (below ▸ each x place)

theorem plain_wireNode {t : Tree} (plain : ∀ id n, t.Holds id n → PlainNode n) {depth : Nat}
    {id : NodeId} {w : Wire} (run : wireNode t depth id = .ok (some w)) : w.Plain :=
  (throughout_wireNode (Q := fun _ => True) (fun id n held => (plain id n held).attributes) trivial
    (fun _ _ _ _ _ => trivial) run).every

end LiteralHoist.Document
