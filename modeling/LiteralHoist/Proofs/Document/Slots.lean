import LiteralHoist.Proofs.Document.Decoded
import LiteralHoist.Proofs.Source.Rendered

/-!
# The places of leaves in the source text

Every literal and every name of a unit has a slot in its source text: whatever literal or name is
put there shows in the slot, and the text before and after it stays the same.  The slots of leaves
do not overlap, and they are in the order of a walk.
-/

set_option autoImplicit false

namespace LiteralHoist.Source

/-- A number has a slot between two texts: a leaf that is put there shows between them. -/
def Tree.Slot (t : Tree) (l : NodeId) (pre post : Text) : Prop :=
  ∀ (n : Node) (s : Text), n.leafText? = some s →
    ∃ t', t.set l (some n) = .ok t' ∧ t'.render t'.root = .ok (pre ++ s ++ post)

/-- Two divisions of a sequence are the same if they stay divisions when the item between the parts
is another. -/
theorem parts_unique {α : Type} {a b : α} (different : a ≠ b) : ∀ {p q p' q' : List α},
    p ++ a :: q = p' ++ a :: q' → p ++ b :: q = p' ++ b :: q' → p = p' ∧ q = q' := by
  intro p
  induction p with
  | nil =>
      intro q p' q' first second
      cases p' with
      | nil => exact ⟨rfl, (List.cons.inj first).2⟩
      | cons c rest =>
          have same : a = b := (List.cons.inj first).1.trans (List.cons.inj second).1.symm
          exact absurd same different
  | cons c rest ih =>
      intro q p' q' first second
      cases p' with
      | nil =>
          have same : a = b := (List.cons.inj first).1.symm.trans (List.cons.inj second).1
          exact absurd same different
      | cons c' rest' =>
          obtain ⟨rfl, firstRest⟩ := List.cons.inj first
          obtain ⟨rfl, rfl⟩ := ih firstRest (List.cons.inj second).2
          exact ⟨rfl, rfl⟩

/-- A number has one slot at most. -/
theorem Tree.Slot.unique {t : Tree} {l : NodeId} {pre post pre' post' : Text}
    (slot : t.Slot l pre post) (other : t.Slot l pre' post') : pre = pre' ∧ post = post' := by
  -- A name of one octet in the slot divides the source text there, whichever octet it is.
  have same (o : UInt8) : pre.octets ++ o :: post.octets = pre'.octets ++ o :: post'.octets := by
    obtain ⟨t', set, shown⟩ := slot { form := .ident ⟨[o]⟩ "" none } ⟨[o]⟩ rfl
    obtain ⟨u, set', shown'⟩ := other { form := .ident ⟨[o]⟩ "" none } ⟨[o]⟩ rfl
    obtain rfl := Except.ok.inj (set.symm.trans set')
    have texts : pre.octets ++ [o] ++ post.octets = pre'.octets ++ [o] ++ post'.octets :=
      congrArg Text.octets (Except.ok.inj (shown.symm.trans shown'))
    simpa using texts
  obtain ⟨first, last⟩ := parts_unique (by decide : (0 : UInt8) ≠ 1) (same 0) (same 1)
  exact ⟨congrArg Text.mk first, congrArg Text.mk last⟩

section Slots
variable {t : Tree} {pieces : List Piece}

/-- A leaf of a template has a slot, between the texts of what is before and after it. -/
theorem slot_of_template
    (run : ∀ t', t.Varies t' → t'.render t'.root = .ok (fill t'.leafText pieces))
    (nodup : (leavesIn pieces).Nodup) {l : NodeId} (member : l ∈ leavesIn pieces)
    (leaf : t.isLeaf l = true) :
    t.Slot l (fill t.leafText (before l pieces)) (fill t.leafText (after l pieces)) := by
  intro n s shows
  obtain ⟨t', set, varies, here, elsewhere⟩ := Tree.exists_set_leaf leaf shows
  refine ⟨t', set, ?_⟩
  have split := split_at_leaf member
  have distinct : (leavesIn (before l pieces) ++ l :: leavesIn (after l pieces)).Nodup := by
    rw [← leavesIn_leaf, ← leavesIn_append, ← split]
    exact nodup
  have outside : ∀ {ps : List Piece}, l ∉ leavesIn ps → fill t'.leafText ps = fill t.leafText ps :=
    fun fresh => fill_congr fun id inside => elsewhere id fun same => fresh (same ▸ inside)
  obtain ⟨_, unrepeated, apart⟩ := List.nodup_append.mp distinct
  have notBefore : l ∉ leavesIn (before l pieces) := fun inside => apart l inside l (by simp) rfl
  have notAfter : l ∉ leavesIn (after l pieces) := (List.nodup_cons.mp unrepeated).1
  have shown : fill t'.leafText (before l pieces ++ .leaf l :: after l pieces) =
      fill t.leafText (before l pieces) ++ s ++ fill t.leafText (after l pieces) := by
    rw [fill_append, fill_cons, outside notBefore, outside notAfter, Text.append_assoc, Piece.fill,
      here]
  rw [run t' varies, ← shown, ← split]

end Slots

end LiteralHoist.Source

namespace LiteralHoist.Document

open LiteralHoist.Source

/-- Every leaf of a unit has a slot in the source text, and a leaf that comes later in a walk has
its slot after the end of the earlier one. -/
theorem leaves_shown_in_order {codec : Codec} {bytes : List UInt8} {doc : Document}
    (accepted : Document.read codec bytes = .ok doc) {t : Tree} (member : t ∈ doc.trees)
    (present : t.root ≠ 0) :
    ∃ order, t.walkOrder = .ok order ∧
      (∀ l, t.Below t.root l → t.isLeaf l = true → ∃ pre post, t.Slot l pre post) ∧
      ∀ l₁ l₂ pre₁ post₁ pre₂ post₂, t.isLeaf l₁ = true → t.isLeaf l₂ = true →
        [l₁, l₂].Sublist order → t.Slot l₁ pre₁ post₁ → t.Slot l₂ pre₂ post₂ →
        pre₁.size + (t.leafText l₁).size ≤ pre₂.size := by
  obtain ⟨pos, d, held⟩ := unit_of_read accepted member present
  obtain ⟨f, shaped⟩ := conforms_of_read accepted member present
  obtain ⟨pieces, ordered, run⟩ := displays_render ⟨f, shaped⟩ held
  have leaves : leavesIn pieces = f.ids.filter t.isLeaf :=
    ordered.eq_filter shaped.follows (by simp [shaped.roots_eq, present])
  have nodup : (leavesIn pieces).Nodup := leaves ▸ shaped.nodup.filter _
  have slot {l : NodeId} (inside : l ∈ f.ids) (leaf : t.isLeaf l = true) :=
    slot_of_template run nodup (leaves ▸ List.mem_filter.mpr ⟨inside, leaf⟩) leaf
  refine ⟨f.ids, shaped.walkOrder_eq,
    fun l lower leaf => ⟨_, _, slot (shaped.below_root.mp lower) leaf⟩, ?_⟩
  intro l₁ l₂ pre₁ post₁ pre₂ post₂ leaf₁ leaf₂ precedes slot₁ slot₂
  obtain ⟨rfl, _⟩ := slot₁.unique (slot (precedes.subset (by simp)) leaf₁)
  obtain ⟨rfl, _⟩ := slot₂.unique (slot (precedes.subset (by simp)) leaf₂)
  have among : [l₁, l₂].Sublist (leavesIn pieces) := by
    have kept := precedes.filter t.isLeaf
    rwa [← leaves, List.filter_eq_self.mpr (by simp [leaf₁, leaf₂])] at kept
  have ordered := (pairwise_before t.leafText nodup).sublist among
  simpa using ordered

/-- A class with a field that is initialised by a literal and a name. -/
def joiningUnit : Tree where
  root := 7
  nodes := #[
    some { form := .literal { value := "a", source := "\"a\"", type := "String" } },
    some { form := .ident "b" "String" none },
    some { form := .binary "+" 1 2 "String" },
    some { form := .namedVar "s" 3 },
    some { form := .varDecl { type := "String", vars := [4] } },
    some { form := .classDecl { name := "A", fqn := "A", members := [5] } },
    some { form := .unit { name := "A.java", classes := [6] } }]

theorem joiningUnit_slots :
    joiningUnit.walkOrder = .ok [7, 6, 5, 4, 3, 1, 2] ∧
      ∃ pre₁ post₁ pre₂ post₂, joiningUnit.Slot 1 pre₁ post₁ ∧ joiningUnit.Slot 2 pre₂ post₂ ∧
        pre₁.size + (Text.ofString "\"a\"").size ≤ pre₂.size := by
  have accepted := read_writtenUnit (t := joiningUnit) (by decide +kernel)
  have walk : joiningUnit.walkOrder = .ok [7, 6, 5, 4, 3, 1, 2] :=
    eq_ok_of_toOption (by decide +kernel)
  obtain ⟨order, walk', slots, ordered⟩ :=
    leaves_shown_in_order accepted (List.mem_singleton.mpr rfl) (by decide)
  obtain rfl := Except.ok.inj (walk'.symm.trans walk)
  have compact := compact_of_read accepted (List.mem_singleton.mpr rfl) (by decide)
  obtain ⟨pre₁, post₁, slot₁⟩ := slots 1 (compact.below_of_le (by decide) (by decide)) rfl
  obtain ⟨pre₂, post₂, slot₂⟩ := slots 2 (compact.below_of_le (by decide) (by decide)) rfl
  exact ⟨walk, pre₁, post₁, pre₂, post₂, slot₁, slot₂,
    ordered 1 2 pre₁ post₁ pre₂ post₂ rfl rfl (by decide) slot₁ slot₂⟩

end LiteralHoist.Document
