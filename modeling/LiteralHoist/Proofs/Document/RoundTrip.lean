import LiteralHoist.Proofs.Document.WireJson
import LiteralHoist.Proofs.Document.WireMessagePack

/-!
# Documents that are written and read again

A document that was read, from either encoding, is written without a fault in both, unless it nests
too deeply for JSON, and what is written is read as the same document: the same version and, for
each unit, the same tree with the same numbers.  The three steps of writing are undone one by one:
the trees are those of their wire forms (`ofWire_toWire`), the wire form is that of its JSON value
(`ofJson_toJson`) or MessagePack value (`unpack_pack`), and the value is that of its octets
(`Json.parse_print`, `MessagePack.read_bytes`).
-/

set_option autoImplicit false

namespace LiteralHoist.Document

open LiteralHoist.Source

/-- Every text of a document is made of characters. -/
structure UnicodeTexts (doc : Document) : Prop where
  version : doc.version.IsUnicode
  nodes : ∀ t ∈ doc.trees, ∀ id n, t.Holds id n → ∀ s ∈ n.form.texts, s.IsUnicode

/-- How deeply the containers of a document nest in JSON. -/
def jsonDepth (doc : Document) : Nat :=
  match doc.toWire with
  | .ok w => w.toJson.depth
  | .error _ => 0

theorem write_json_of_shallow {doc : Document} {w : WireDocument} (wire : doc.toWire = .ok w)
    (shallow : jsonDepth doc ≤ Json.maxDepth) :
    Document.write .json doc = .ok (.ok w.toJson.print.octets) := by
  have bounded : w.toJson.depth ≤ Json.maxDepth := by simpa [jsonDepth, wire] using shallow
  rw [Document.write, wire, ok_bind, Document.writeWire, Json.write_of_depth_le bounded]
  rfl

theorem write_messagePack {doc : Document} {w : WireDocument} (wire : doc.toWire = .ok w) :
    Document.write .messagePack doc = .ok (.ok w.pack.bytes) := by
  rw [Document.write, wire]
  rfl

theorem plain_toWire {codec : Codec} {bytes : List UInt8} {doc : Document} {w : WireDocument}
    (success : Document.read codec bytes = .ok doc) (unicode : UnicodeTexts doc)
    (written : doc.toWire = .ok w) : ∀ c, some c ∈ w.units → c.Plain := by
  intro c member
  obtain ⟨_, units⟩ := toWire_inv written
  obtain ⟨t, inDoc, unit⟩ := exists_of_forall₂ units.flip member
  have fits := positionsFit_of_read success inDoc
  refine plain_wireNode (fun id n held => ?_) unit
  exact ⟨unicode.nodes t inDoc id n held, (fits id n held).1, (fits id n held).2⟩

theorem isUnicode_version {doc : Document} {w : WireDocument} (unicode : UnicodeTexts doc)
    (written : doc.toWire = .ok w) : w.version.IsUnicode := by
  rw [(toWire_inv written).1]
  split
  · exact Text.isUnicode_ofString _
  · exact unicode.version

theorem exists_toWire_of_read {codec : Codec} {bytes : List UInt8} {doc : Document}
    (success : Document.read codec bytes = .ok doc) : ∃ w, doc.toWire = .ok w := by
  refine exists_toWire fun t member => ?_
  exact or_iff_not_imp_left.mpr (conforms_of_read success member)

theorem readWire_json {codec : Codec} {bytes : List UInt8} {doc : Document} {w : WireDocument}
    (success : Document.read codec bytes = .ok doc) (unicode : UnicodeTexts doc)
    (shallow : jsonDepth doc ≤ Json.maxDepth) (written : doc.toWire = .ok w) :
    Document.readWire .json w.toJson.print.octets = .ok w := by
  have plain := plain_toWire success unicode written
  have bounded : w.toJson.depth ≤ Json.maxDepth := by simpa [jsonDepth, written] using shallow
  have parsed : Json.parse w.toJson.print.octets = .ok w.toJson :=
    Json.parse_print (plain_toJson (isUnicode_version unicode written) plain) bounded
  rw [Document.readWire, parsed]
  simp only [ofJson_toJson plain]

/-- A document that was read is the one that is read from its JSON form. -/
theorem json_round_trip {codec : Codec} {bytes : List UInt8} {doc : Document}
    (success : Document.read codec bytes = .ok doc) (unicode : UnicodeTexts doc)
    (declares : ∀ t ∈ doc.trees, DeclaresVars t) (shallow : jsonDepth doc ≤ Json.maxDepth) :
    ∃ written, Document.write .json doc = .ok (.ok written) ∧
      Document.read .json written = .ok doc := by
  obtain ⟨w, written⟩ := exists_toWire_of_read success
  obtain ⟨d, _, made⟩ := bind_eq_ok success
  refine ⟨w.toJson.print.octets, write_json_of_shallow written shallow, ?_⟩
  rw [Document.read, readWire_json success unicode shallow written, ok_bind]
  exact ofWire_toWire made declares written

/-- A document with a missing unit, a missing class, keys in other capitals, a repeated modifier, a
position at the bound, and a value that is written with escapes. -/
def looseJson : Json :=
  .obj [("version", .str "v1.2.0-rc.1"), ("units", .arr [.null, .obj [
    ("kind", .str "unit"), ("NAME", .str "Ä.java"), ("classes", .arr [.null, .obj [
      ("kind", .str "class"), ("line", .num "-9223372036854775808"), ("col", .num "7"),
      ("name", .str "A"), ("mods", .arr [.str "final", .str "public", .str "final"]),
      ("members", .arr [.obj [
        ("kind", .str "vardecl"), ("type", .str "String"), ("vars", .arr [.obj [
          ("kind", .str "var"), ("name", .str "s"), ("init", .obj [
            ("kind", .str "literal"), ("value", .str "<\u2028\"\x01\\😀>")])]])]])]])]])]

def looseUnit : Tree where
  root := 5
  nodes := #[
    some { form := .literal { value := "<\u2028\"\x01\\😀>" } },
    some { form := .namedVar "s" 1 },
    some { form := .varDecl { type := "String", vars := [2] } },
    some {
      pos := { line := -0x8000000000000000, col := 7 }
      form := .classDecl { mods := .ofList [.pub, .final], name := "A", members := [3] } },
    some { form := .unit { name := "Ä.java", classes := [4] } }]

theorem looseUnit_round_trip :
    Document.read .json looseJson.print.octets = .ok ⟨"v1.2.0-rc.1", [{}, looseUnit]⟩ ∧
      ∃ written, Document.write .json ⟨"v1.2.0-rc.1", [{}, looseUnit]⟩ = .ok (.ok written) ∧
        Document.read .json written = .ok ⟨"v1.2.0-rc.1", [{}, looseUnit]⟩ := by
  have success : Document.read .json looseJson.print.octets =
      .ok ⟨"v1.2.0-rc.1", [{}, looseUnit]⟩ := by decide +kernel
  have texts : ∀ entry ∈ looseUnit.nodes.toList, ∀ n ∈ entry, ∀ s ∈ n.form.texts, s.IsUnicode := by
    decide +kernel
  refine ⟨success, json_round_trip success ⟨Text.isUnicode_ofString _, ?_⟩ ?_ (by decide +kernel)⟩
  · intro t member id n held
    rcases List.mem_pair.mp member with rfl | rfl
    · simpa using held.mem_nodes
    · exact texts _ held.mem_nodes n rfl
  · intro t member id pos d held
    rcases List.mem_pair.mp member with rfl | rfl
    · simpa using held.mem_nodes
    · have declared := held.mem_nodes
      simp [looseUnit] at declared
      simp [declared]

theorem readWire_messagePack {codec : Codec} {bytes : List UInt8} {doc : Document}
    {w : WireDocument} (success : Document.read codec bytes = .ok doc) (heads : HasHeads doc)
    (written : doc.toWire = .ok w) : Document.readWire .messagePack w.pack.bytes = .ok w := by
  have throughout := throughout_toWire heads (fun t => positionsFit_of_read success) written
  have fits : ∀ c, some c ∈ w.units → c.Every Attributes.Fits := fun c member =>
    (throughout.units c member).every.imp fun _ both => both.2
  have read : MessagePack.read w.pack.bytes = .ok w.pack :=
    MessagePack.read_bytes (hasForm_packDocument throughout)
  rw [Document.readWire, read]
  simp only [unpack_pack fits]

/-- A document that was read, whatever its texts, is written in MessagePack.  If its texts and lists
have heads, what is written is read as the document, and if not, then there are no octets at all
that are read as the document from MessagePack. -/
theorem messagePack_round_trip {codec : Codec} {bytes : List UInt8} {doc : Document}
    (success : Document.read codec bytes = .ok doc)
    (declares : ∀ t ∈ doc.trees, DeclaresVars t) :
    ∃ written, Document.write .messagePack doc = .ok (.ok written) ∧
      (HasHeads doc → Document.read .messagePack written = .ok doc) ∧
      (¬ HasHeads doc → ∀ octets, Document.read .messagePack octets ≠ .ok doc) := by
  obtain ⟨w, written⟩ := exists_toWire_of_read success
  refine ⟨w.pack.bytes, write_messagePack written, fun heads => ?_,
    fun none octets read => none (hasHeads_of_read read)⟩
  obtain ⟨d, _, made⟩ := bind_eq_ok success
  rw [Document.read, readWire_messagePack success heads written, ok_bind]
  exact ofWire_toWire made declares written

/-- A document that is given as the list of its values, with a missing unit, and with texts, lists
and positions that need the longer heads. -/
def wideValue : MessagePack :=
  .list [.str "v1.0.0", .list [.nil, .map [
    (.str "kind", .str "unit"), (.str "name", .str (.ofChars (.replicate 256 'n'))),
    (.str "classes", .list (.replicate 16 (.map [
      (.str "col", .int (-0x8000000000000000)), (.str "line", .int 0x7fffffffffffffff),
      (.str "kind", .str "class"), (.str "fqn", .str (.ofChars (.replicate 32 'q')))])))]]]

def wideUnit : Tree where
  root := 17
  nodes := .replicate 16 (some {
      pos := { line := 0x7fffffffffffffff, col := -0x8000000000000000 }
      form := .classDecl { fqn := .ofChars (.replicate 32 'q') } }) ++ #[
    some { form := .unit { name := .ofChars (.replicate 256 'n'), classes := List.range' 1 16 } }]

theorem wideUnit_round_trip :
    Document.read .messagePack wideValue.bytes = .ok ⟨"v1.0.0", [{}, wideUnit]⟩ ∧
      ∃ written, Document.write .messagePack ⟨"v1.0.0", [{}, wideUnit]⟩ = .ok (.ok written) ∧
        Document.read .messagePack written = .ok ⟨"v1.0.0", [{}, wideUnit]⟩ := by
  have success : Document.read .messagePack wideValue.bytes = .ok ⟨"v1.0.0", [{}, wideUnit]⟩ := by
    decide +kernel
  have kinds : ∀ entry ∈ wideUnit.nodes.toList, ∀ n ∈ entry, n.form.kind ≠ .varDecl := by
    decide +kernel
  obtain ⟨written, wrote, back, _⟩ := messagePack_round_trip success fun t member => by
    intro id pos d held
    rcases List.mem_pair.mp member with rfl | rfl
    · simpa using held.mem_nodes
    · exact absurd rfl (kinds _ held.mem_nodes _ rfl)
  exact ⟨success, written, wrote, back (hasHeads_of_read success)⟩

end LiteralHoist.Document
