import LiteralHoist.Proofs.Document.Grammar
import LiteralHoist.Proofs.Document.RoundTrip

/-!
# Documents that are not read again

A declaration is read if it has a list of variables that is not empty, and missing entries of the
list are dropped only then.  So there are documents with declarations that have no variable left.
What is written for such a document is not read, and these are the only documents of which what is
written is not read.
-/

set_option autoImplicit false

namespace LiteralHoist.Document

open LiteralHoist.Source

theorem Kind.name_injective {k k' : Kind} (same : k.name = k'.name) : k = k' := by
  have found := Kind.ofName?_name k
  rw [same, Kind.ofName?_name] at found
  exact (Option.some.inj found).symm

def Readable (t : Tree) (id : NodeId) : Prop :=
  ∃ depth w allowed, wireNode t depth id = .ok (some w) ∧ w.Conforms allowed

section Below
variable {t : Tree} {id : NodeId} {n : Node}

/-- What conforms and was written for a node follows the rules for the kind of the node. -/
theorem Readable.inv (readable : Readable t id) (held : t.Holds id n) :
    ∃ depth child, (∀ x ∈ n.form.places, wireNode t depth x = .ok (child x)) ∧
      (n.form.kind = .varDecl → (filledWire child n).many .vars ≠ []) ∧
      (∀ slot kinds, .list slot kinds ∈ rules n.form.kind →
        ∀ c, some c ∈ (filledWire child n).many slot → c.Conforms kinds) ∧
      ∀ slot kinds needed, .one slot kinds needed ∈ rules n.form.kind →
        ∀ c, (filledWire child n).one slot = some c → c.Conforms kinds := by
  obtain ⟨depth, w, allowed, run, conforms⟩ := readable
  obtain ⟨less, _, rfl, _⟩ := holds_of_wireNode run
  obtain ⟨child, each, made⟩ := wireNode_inv held run
  obtain rfl := Option.some.inj made
  cases conforms with
  | @node _ _ kind _ attrs vars _ lists singles =>
      obtain rfl : kind = n.form.kind := by
        refine Kind.name_injective ?_
        rw [← attrs.named, attrs_filledWire]
        exact kind_nodeAttributes n.pos n.form
      exact ⟨less, child, each, vars, lists, singles⟩

theorem Readable.child (readable : Readable t id) {x : NodeId} (child : t.Child id x)
    {m : Node} (here : t.Holds x m) : Readable t x := by
  obtain ⟨⟨pos, form⟩, held, isChild⟩ := child
  have place : x ∈ form.places := (List.mem_filter.mp isChild).1
  obtain ⟨depth, children, each, _, lists, singles⟩ := readable.inv held
  obtain ⟨c, made⟩ := present_of_wireNode here (each x place)
  have run := each x place
  rw [made] at run
  rw [← Form.map_id_demands, ← demands_fillings] at place
  obtain ⟨demand, demanded, rfl⟩ := List.mem_map.mp place
  obtain ⟨f, filled, inside⟩ := List.mem_flatMap.mp demanded
  have written := written_filledWire children pos form f filled
  have ruled : f.rule ∈ rules form.kind := by
    rw [← map_rule_fillings]
    exact List.mem_map_of_mem filled
  cases f with
  | list slot kinds ids =>
      obtain ⟨y, listed, rfl⟩ := List.mem_map.mp inside
      refine ⟨depth, c, kinds, run, lists slot kinds ruled c ?_⟩
      rw [show (filledWire children ⟨pos, form⟩).many slot = ids.map children from written, ← made]
      exact List.mem_map_of_mem listed
  | one slot kinds needed y =>
      obtain rfl : demand = ⟨y, kinds, needed⟩ := by simpa [Filling.demands] using inside
      refine ⟨depth, c, kinds, run, singles slot kinds needed ruled c ?_⟩
      rw [show (filledWire children ⟨pos, form⟩).one slot = children y from written]
      exact made

theorem Readable.below (readable : Readable t id) {x : NodeId} (lower : t.Below id x) {m : Node}
    (here : t.Holds x m) : Readable t x := by
  induction lower generalizing m with
  | refl => exact readable
  | step _ isChild ih =>
      obtain ⟨p, held, member⟩ := isChild
      exact (ih held).child ⟨p, held, member⟩ here

theorem Readable.vars_ne_nil {pos : Position} {d : VarDecl} (readable : Readable t id)
    (held : t.Holds id ⟨pos, .varDecl d⟩) : d.vars ≠ [] := by
  obtain ⟨_, child, _, vars, _⟩ := readable.inv held
  have declared : d.vars.map child ≠ [] := vars rfl
  simpa using declared

end Below

/-- The written form of a tree that was read is read exactly if every declaration of the tree has a
variable. -/
theorem exists_treeOfUnit_iff_declaresVars {u u' : Option Wire} {t : Tree}
    (success : treeOfUnit u = .ok t) (written : unitOfTree t = .ok u') :
    (∃ t', treeOfUnit u' = .ok t') ↔ DeclaresVars t := by
  constructor
  · intro accepted id pos d held
    by_cases absent : t.root = 0
    · obtain rfl := eq_empty_of_treeOfUnit success absent
      exact absurd (Nat.le_zero.mp held.le_size) held.ne_zero
    · have compact := compact_of_treeOfUnit success absent
      obtain ⟨f, shaped⟩ := compact.conforms
      obtain ⟨n, root⟩ := shaped.root_holds
      obtain ⟨w, rfl⟩ := present_of_wireNode root written
      have readable : Readable t t.root :=
        ⟨t.size + 1, w, [.unit], written, exists_treeOfUnit_iff.mp accepted w rfl⟩
      exact (readable.below (compact.below_root held) held).vars_ne_nil held
  · exact fun declares => ⟨t, treeOfUnit_unitOfTree success declares written⟩

theorem exists_ofWire_toWire_iff {d w : WireDocument} {doc : Document}
    (success : Document.ofWire d = .ok doc) (written : doc.toWire = .ok w) :
    (∃ doc', Document.ofWire w = .ok doc') ↔ ∀ t ∈ doc.trees, DeclaresVars t := by
  constructor
  · rintro ⟨doc', accepted⟩ t member
    obtain ⟨_, _, again⟩ := ofWire_iff.mp accepted
    obtain ⟨_, _, trees⟩ := ofWire_iff.mp success
    obtain ⟨_, units⟩ := toWire_inv written
    obtain ⟨u', listed, unit⟩ := exists_of_forall₂ units member
    obtain ⟨u, _, read⟩ := exists_of_forall₂ trees.flip member
    obtain ⟨t', _, reread⟩ := exists_of_forall₂ again listed
    exact (exists_treeOfUnit_iff_declaresVars read unit).mp ⟨t', reread⟩
  · exact fun declares => ⟨doc, ofWire_toWire success declares written⟩

/-- What is written for a document in an encoding can be read: JSON has texts of characters only and
nests to a limit, and MessagePack has heads for lengths up to one. -/
inductive Expressible (doc : Document) : Codec → Prop where
  | json (unicode : UnicodeTexts doc) (shallow : jsonDepth doc ≤ Json.maxDepth) :
      Expressible doc .json
  | messagePack (heads : HasHeads doc) : Expressible doc .messagePack

section Read
variable {codec : Codec} {bytes : List UInt8} {doc : Document}
  (success : Document.read codec bytes = .ok doc)
include success

/-- The wire form of a document is read from what is written for the document. -/
theorem readWire_written {codec' : Codec} (expressible : Expressible doc codec') :
    ∃ w written, doc.toWire = .ok w ∧ Document.write codec' doc = .ok (.ok written) ∧
      Document.readWire codec' written = .ok w := by
  obtain ⟨w, wire⟩ := exists_toWire_of_read success
  cases expressible with
  | json unicode shallow =>
      exact ⟨w, _, wire, write_json_of_shallow wire shallow,
        readWire_json success unicode shallow wire⟩
  | messagePack heads =>
      exact ⟨w, _, wire, write_messagePack wire, readWire_messagePack success heads wire⟩

/-- A document that was read is written in every encoding that can express it, and what is written
is read exactly if every declaration of the document has a variable. -/
theorem reread_iff_declaresVars {codec' : Codec} (expressible : Expressible doc codec') :
    ∃ written, Document.write codec' doc = .ok (.ok written) ∧
      ((∃ doc', Document.read codec' written = .ok doc') ↔ ∀ t ∈ doc.trees, DeclaresVars t) := by
  obtain ⟨d, _, made⟩ := bind_eq_ok success
  obtain ⟨w, written, wire, wrote, again⟩ := readWire_written success expressible
  refine ⟨written, wrote, ?_⟩
  rw [Document.read, again, ok_bind]
  exact exists_ofWire_toWire_iff made wire

end Read

/-- A document with a declaration whose only variable is missing. -/
def hollowJson : Json :=
  .obj [("version", .str "v1.0.0"), ("units", .arr [.obj [
    ("kind", .str "unit"), ("name", .str "A.java"), ("classes", .arr [.obj [
      ("kind", .str "class"), ("name", .str "A"), ("fqn", .str "A"), ("members", .arr [.obj [
        ("kind", .str "vardecl"), ("type", .str "int"), ("vars", .arr [.null])]])]])]])]

def hollowUnit : Tree where
  root := 3
  nodes := #[
    some { form := .varDecl { type := "int" } },
    some { form := .classDecl { name := "A", fqn := "A", members := [1] } },
    some { form := .unit { name := "A.java", classes := [2] } }]

theorem hollowUnit_read :
    Document.read .json hollowJson.print.octets = .ok ⟨"v1.0.0", [hollowUnit]⟩ := by
  decide +kernel

/-- The document is read, but what is written for it is not. -/
theorem hollowUnit_not_reread :
    Document.read .json hollowJson.print.octets = .ok ⟨"v1.0.0", [hollowUnit]⟩ ∧
      ∃ written, Document.write .json ⟨"v1.0.0", [hollowUnit]⟩ = .ok (.ok written) ∧
        Document.read .json written = .error (.node "A.java" ⟨{}, .noVariables⟩) := by
  refine ⟨hollowUnit_read, _, rfl, ?_⟩
  decide +kernel

theorem hollowUnit_unicode : UnicodeTexts ⟨"v1.0.0", [hollowUnit]⟩ := by
  have texts : ∀ entry ∈ hollowUnit.nodes.toList, ∀ n ∈ entry, ∀ s ∈ n.form.texts,
      s.IsUnicode := by decide +kernel
  refine ⟨Text.isUnicode_ofString _, fun t member id n held => ?_⟩
  obtain rfl := List.mem_singleton.mp member
  exact texts _ held.mem_nodes n rfl

theorem hollowUnit_hasHeads : HasHeads ⟨"v1.0.0", [hollowUnit]⟩ := by
  refine ⟨by decide, by decide, fun t member id n held => ?_⟩
  obtain rfl := List.mem_singleton.mp member
  have listed := held.mem_nodes
  simp only [hollowUnit, List.mem_cons, Option.some.injEq, List.not_mem_nil, or_false] at listed
  rcases listed with rfl | rfl | rfl
  · exact ⟨by decide, by decide, by simp⟩
  · exact ⟨by decide, by decide, by simp⟩
  · exact ⟨by decide, by decide, by rintro d ⟨rfl⟩; decide⟩

theorem hollowUnit_reread_iff :
    (∃ written, Document.write .json ⟨"v1.0.0", [hollowUnit]⟩ = .ok (.ok written) ∧
      ¬ ∃ doc', Document.read .json written = .ok doc') ∧
    ∃ written, Document.write .messagePack ⟨"v1.0.0", [hollowUnit]⟩ = .ok (.ok written) ∧
      ¬ ∃ doc', Document.read .messagePack written = .ok doc' := by
  have hollow : ¬ ∀ t ∈ [hollowUnit], DeclaresVars t := fun declares =>
    declares hollowUnit (by simp) 1 {} { type := "int" } rfl rfl
  obtain ⟨text, wroteText, againText⟩ := reread_iff_declaresVars hollowUnit_read
    (.json hollowUnit_unicode (by decide +kernel))
  obtain ⟨octets, wroteOctets, againOctets⟩ := reread_iff_declaresVars hollowUnit_read
    (.messagePack hollowUnit_hasHeads)
  exact ⟨⟨text, wroteText, againText.not.mpr hollow⟩,
    octets, wroteOctets, againOctets.not.mpr hollow⟩

end LiteralHoist.Document
