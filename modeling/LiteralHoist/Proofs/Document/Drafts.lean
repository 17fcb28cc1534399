import LiteralHoist.Document.WireMessagePack
import LiteralHoist.Proofs.Document.WireForm
import LiteralHoist.Proofs.Source.Arena

/-!
# Invariants of drafts

A draft keeps nodes in the background, which may come back when a key is repeated, so an invariant
of the readers is about those as well: every draft has attributes of a kind and lists of an
admissible length.

For MessagePack the invariants of all readers are derived once from what a value passes on to the
values in it and to the attributes that are read from it (`Inherits`).
-/

set_option autoImplicit false

namespace LiteralHoist.Document

section Every
variable (P : Attributes → Prop) (Q : Nat → Prop)

/-- The attributes of a draft have a property and so have the lengths of its lists; the same holds
of all drafts below it and in its background. -/
inductive Draft.Every : Draft → Prop where
  | node {attrs : Attributes} {pastWords : PastWords} {many past : ListSlot → List (Option Draft)}
      {one : Slot → Option Draft} (here : P attrs) (lengths : ∀ slot, Q (many slot).length)
      (lists : ∀ slot d, some d ∈ many slot ++ past slot → Every d)
      (singles : ∀ slot, ∀ d ∈ one slot, Every d) : Every (.node attrs pastWords many past one)

def AllDrafts (ds : List (Option Draft)) : Prop :=
  ∀ d, some d ∈ ds → d.Every P Q

/-- The attributes of a node have a property and so have the lengths of its lists; the same holds
of all nodes below it. -/
inductive Wire.Throughout : Wire → Prop where
  | node {attrs : Attributes} {many : ListSlot → List (Option Wire)} {one : Slot → Option Wire}
      (here : P attrs) (lengths : ∀ slot, Q (many slot).length)
      (lists : ∀ slot w, some w ∈ many slot → Throughout w)
      (singles : ∀ slot w, one slot = some w → Throughout w) : Throughout (.node attrs many one)

end Every

section Lists
variable {P : Attributes → Prop} {Q : Nat → Prop}

theorem Wire.Throughout.inv {w : Wire} (every : w.Throughout P Q) :
    P w.attrs ∧ (∀ slot, Q (w.many slot).length) ∧
      (∀ slot c, some c ∈ w.many slot → c.Throughout P Q) ∧
      ∀ slot c, w.one slot = some c → c.Throughout P Q := by
  cases every with
  | node here lengths lists singles => exact ⟨here, lengths, lists, singles⟩

theorem Wire.Throughout.every {w : Wire} (every : w.Throughout P Q) : w.Every P := by
  induction every with
  | node here _ _ _ lists singles => exact .node here lists singles

namespace AllDrafts
variable {ds es : List (Option Draft)}

theorem append (first : AllDrafts P Q ds) (second : AllDrafts P Q es) : AllDrafts P Q (ds ++ es) :=
  fun d member => (List.mem_append.mp member).elim (first d) (second d)

theorem mono (all : AllDrafts P Q ds) (subset : es ⊆ ds) : AllDrafts P Q es :=
  fun d member => all d (subset member)

theorem nil : AllDrafts P Q [] := by
  simp [AllDrafts]

theorem cons {d : Option Draft} (tail : AllDrafts P Q ds) (head : ∀ e ∈ d, e.Every P Q) :
    AllDrafts P Q (d :: ds) := by
  intro e member
  rcases List.mem_cons.mp member with here | later
  · exact head e here.symm
  · exact tail e later

theorem head (all : AllDrafts P Q ds) : ∀ d ∈ ds.headD none, d.Every P Q := by
  intro d first
  cases ds with
  | nil => simp at first
  | cons e rest => exact all d (by simp_all)

end AllDrafts

namespace Draft.Every
variable {d : Draft}

theorem empty (blank : P {}) (none : Q 0) : Draft.empty.Every P Q :=
  .node blank (fun _ => none) (by simp) (by simp)

theorem attrs (every : d.Every P Q) : P d.attrs := by
  cases every with
  | node here _ _ _ => exact here

theorem lengths (every : d.Every P Q) (slot : ListSlot) : Q (d.many slot).length := by
  cases every with
  | node _ lengths _ _ => exact lengths slot

theorem lists (every : d.Every P Q) (slot : ListSlot) :
    AllDrafts P Q (d.many slot ++ d.past slot) := by
  cases every with
  | node _ _ lists _ => exact lists slot

theorem singles (every : d.Every P Q) (slot : Slot) : ∀ c ∈ d.one slot, c.Every P Q := by
  cases every with
  | node _ _ _ singles => exact singles slot

theorem getD {old : Option Draft} (every : ∀ d ∈ old, d.Every P Q) (blank : P {}) (none : Q 0) :
    (old.getD .empty).Every P Q := by
  cases old with
  | none => exact Draft.Every.empty blank none
  | some d => exact every d rfl

theorem setAttrs (every : d.Every P Q) {a : Attributes} (here : P a) (p : PastWords) :
    (d.setAttrs a p).Every P Q :=
  .node here every.lengths every.lists every.singles

theorem setMany (every : d.Every P Q) (slot : ListSlot)
    {list : List (Option Draft) × List (Option Draft)} (length : Q list.1.length)
    (all : AllDrafts P Q (list.1 ++ list.2)) : (d.setMany slot list).Every P Q := by
  refine .node every.attrs (fun s => ?_) (fun s => ?_) every.singles
  · by_cases same : s = slot
    · simpa only [if_pos same] using length
    · simpa only [if_neg same] using every.lengths s
  · by_cases same : s = slot
    · simp only [if_pos same]
      exact all
    · simp only [if_neg same]
      exact every.lists s

theorem setOne (every : d.Every P Q) (slot : Slot) {child : Option Draft}
    (each : ∀ c ∈ child, c.Every P Q) : (d.setOne slot child).Every P Q := by
  refine .node every.attrs every.lengths every.lists fun s => ?_
  by_cases same : s = slot
  · simpa only [if_pos same] using each
  · simpa only [if_neg same] using every.singles s

end Draft.Every

theorem mem_finishList {ds : List (Option Draft)} {w : Wire}
    (member : some w ∈ Draft.finishList ds) : ∃ d, some d ∈ ds ∧ d.finish = w := by
  induction ds with
  | nil => simp [Draft.finishList] at member
  | cons d rest ih =>
      rw [Draft.finishList, List.mem_cons] at member
      rcases member with first | later
      · cases d with
        | none => simp [Draft.finishOption] at first
        | some d => exact ⟨d, by simp, by simpa [Draft.finishOption] using first.symm⟩
      · obtain ⟨e, inRest, made⟩ := ih later
        exact ⟨e, by simp [inRest], made⟩

theorem length_finishList (ds : List (Option Draft)) :
    (Draft.finishList ds).length = ds.length := by
  induction ds with
  | nil => rfl
  | cons d rest ih => rw [Draft.finishList, List.length_cons, ih, List.length_cons]

theorem Draft.Every.finish {d : Draft} (every : d.Every P Q) : d.finish.Throughout P Q := by
  induction every with
  | @node attrs pastWords many past one here lengths _ _ inLists inSingles =>
      refine .node here (fun slot => ?_) (fun slot w member => ?_) (fun slot w present => ?_)
      · rw [length_finishList]
        exact lengths slot
      · obtain ⟨d, listed, rfl⟩ := mem_finishList member
        exact inLists slot d (by simp [listed])
      · cases child : one slot with
        | none => simp [child, Draft.finishOption] at present
        | some c =>
            simp only [child, Draft.finishOption, Option.some.injEq] at present
            exact present ▸ inSingles slot c child

end Lists

/-! ## Reading MessagePack -/

/-- What a property of values passes on to the values in them, to texts, to attributes and to the
lengths of lists. -/
structure Inherits (V : MessagePack → Prop) (T : Text → Prop) (P : Attributes → Prop)
    (Q : Nat → Prop) : Prop where
  items : ∀ {items}, V (.list items) → Q items.length ∧ ∀ item ∈ items, V item
  entries : ∀ {entries}, V (.map entries) → ∀ entry ∈ entries, V entry.2
  text : ∀ {v s}, V v → unpackText v = .ok s → T s
  attributes : ∀ {a a' : Attributes} {key v}, V v → P a → a.unpackKey key v = .ok a' → P a'
  noText : T ""
  noAttributes : P {}
  noItems : Q 0

section Unpack
variable {V : MessagePack → Prop} {T : Text → Prop} {P : Attributes → Prop} {Q : Nat → Prop}

mutual

theorem every_unpackNode (inherits : Inherits V T P Q) {old new : Option Draft}
    (before : ∀ d ∈ old, d.Every P Q) (v : MessagePack) (valid : V v)
    (success : unpackNode old v = .ok new) : ∀ d ∈ new, d.Every P Q := by
  have start := Draft.Every.getD before inherits.noAttributes inherits.noItems
  match v with
  | .nil =>
    rw [unpackNode] at success
    simp [← Except.ok.inj success]
  | .map entries =>
    rw [unpackNode] at success
    obtain ⟨d, read, rfl⟩ := map_eq_ok success
    rintro _ ⟨rfl⟩
    exact every_unpackEntries inherits start entries (inherits.entries valid) read
  | .list [] =>
    rw [unpackNode] at success
    obtain rfl := Except.ok.inj success
    rintro _ ⟨rfl⟩
    exact Draft.Every.empty inherits.noAttributes inherits.noItems
  | .list (item :: items) =>
    rw [unpackNode] at success
    · obtain ⟨d, read, rfl⟩ := map_eq_ok success
      rintro _ ⟨rfl⟩
      exact every_unpackAll inherits start Key.all (item :: items) (inherits.items valid).2 read
    · simp
  | .bool _ | .int _ | .str _ | .other => simp [unpackNode] at success

theorem every_unpackEntries (inherits : Inherits V T P Q) {d d' : Draft} (before : d.Every P Q)
    (entries : List Entry) (valid : ∀ entry ∈ entries, V entry.2)
    (success : unpackEntries d entries = .ok d') : d'.Every P Q := by
  match entries with
  | [] =>
    rw [unpackEntries] at success
    exact Except.ok.inj success ▸ before
  | (k, v) :: rest =>
    obtain ⟨here, later⟩ := List.forall_mem_cons.mp valid
    rw [unpackEntries] at success
    obtain ⟨key, _, success⟩ := bind_eq_ok success
    split at success
    · exact every_unpackEntries inherits before rest later success
    · rename_i slot _
      obtain ⟨list, read, success⟩ := bind_eq_ok success
      obtain ⟨length, all⟩ := every_unpackNodes inherits (before.lists slot) v here read
      exact every_unpackEntries inherits (before.setMany slot length all) rest later success
    · rename_i slot _
      obtain ⟨child, read, success⟩ := bind_eq_ok success
      have each := every_unpackNode inherits (before.singles slot) v here read
      exact every_unpackEntries inherits (before.setOne slot each) rest later success
    · obtain ⟨a, read, success⟩ := bind_eq_ok success
      exact every_unpackEntries inherits
        (before.setAttrs (inherits.attributes here before.attrs read) _) rest later success

theorem every_unpackAll (inherits : Inherits V T P Q) {d d' : Draft} (before : d.Every P Q)
    (keys : List Key) (vs : List MessagePack) (valid : ∀ v ∈ vs, V v)
    (success : unpackAll d keys vs = .ok d') : d'.Every P Q := by
  match vs with
  | [] =>
    rw [unpackAll] at success
    split at success
    · exact Except.ok.inj success ▸ before
    · contradiction
  | v :: vs =>
    obtain ⟨here, later⟩ := List.forall_mem_cons.mp valid
    unfold unpackAll at success
    split at success
    · contradiction
    · rename_i slot keys
      obtain ⟨list, read, success⟩ := bind_eq_ok success
      obtain ⟨length, all⟩ := every_unpackNodes inherits (before.lists slot) v here read
      exact every_unpackAll inherits (before.setMany slot length all) keys vs later success
    · rename_i slot keys
      obtain ⟨child, read, success⟩ := bind_eq_ok success
      have each := every_unpackNode inherits (before.singles slot) v here read
      exact every_unpackAll inherits (before.setOne slot each) keys vs later success
    · rename_i keys _ _
      obtain ⟨a, read, success⟩ := bind_eq_ok success
      exact every_unpackAll inherits
        (before.setAttrs (inherits.attributes here before.attrs read) _) keys vs later success

theorem every_unpackNodes (inherits : Inherits V T P Q) {old past : List (Option Draft)}
    (before : AllDrafts P Q (old ++ past)) (v : MessagePack) (valid : V v)
    {list : List (Option Draft) × List (Option Draft)}
    (success : unpackNodes old past v = .ok list) :
    Q list.1.length ∧ AllDrafts P Q (list.1 ++ list.2) := by
  match v with
  | .nil =>
    rw [unpackNodes] at success
    exact Except.ok.inj success ▸ ⟨inherits.noItems, AllDrafts.nil⟩
  | .list items =>
    rw [unpackNodes] at success
    obtain ⟨nodes, read, made⟩ := bind_eq_ok success
    obtain rfl := Except.ok.inj made
    obtain ⟨length, each⟩ := inherits.items valid
    obtain ⟨count, all⟩ := every_unpackNodeList inherits before items each read
    exact ⟨count ▸ length, all.append (before.mono (List.drop_subset _ _))⟩
  | .bool _ | .int _ | .str _ | .map _ | .other => simp [unpackNodes] at success

theorem every_unpackNodeList (inherits : Inherits V T P Q) {old new : List (Option Draft)}
    (before : AllDrafts P Q old) (items : List MessagePack) (valid : ∀ item ∈ items, V item)
    (success : unpackNodeList old items = .ok new) :
    items.length = new.length ∧ AllDrafts P Q new := by
  match items with
  | [] =>
    rw [unpackNodeList] at success
    exact Except.ok.inj success ▸ ⟨rfl, AllDrafts.nil⟩
  | item :: items =>
    obtain ⟨here, rest⟩ := List.forall_mem_cons.mp valid
    rw [unpackNodeList] at success
    obtain ⟨d, first, success⟩ := bind_eq_ok success
    obtain ⟨more, later, made⟩ := bind_eq_ok success
    obtain rfl := Except.ok.inj made
    obtain ⟨count, all⟩ := every_unpackNodeList inherits
      (before.mono fun _ => List.mem_of_mem_tail) items rest later
    exact ⟨congrArg (· + 1) count, all.cons (every_unpackNode inherits before.head item here first)⟩

end

end Unpack

structure DocumentDraft.Every (T : Text → Prop) (P : Attributes → Prop) (Q : Nat → Prop)
    (d : DocumentDraft) : Prop where
  version : T d.version
  length : Q d.units.length
  units : AllDrafts P Q (d.units ++ d.past)

structure WireDocument.Throughout (T : Text → Prop) (P : Attributes → Prop) (Q : Nat → Prop)
    (d : WireDocument) : Prop where
  version : T d.version
  length : Q d.units.length
  units : ∀ w, some w ∈ d.units → w.Throughout P Q

section Document
variable {V : MessagePack → Prop} {T : Text → Prop} {P : Attributes → Prop} {Q : Nat → Prop}

theorem DocumentDraft.Every.finish {d : DocumentDraft} (every : d.Every T P Q) :
    d.finish.Throughout T P Q := by
  refine ⟨every.version, ?_, fun w member => ?_⟩
  · rw [DocumentDraft.finish, length_finishList]
    exact every.length
  · obtain ⟨c, listed, rfl⟩ := mem_finishList member
    exact (every.units c (by simp [listed])).finish

variable (inherits : Inherits V T P Q)
include inherits

theorem Inherits.noDocument : ({} : DocumentDraft).Every T P Q :=
  ⟨inherits.noText, inherits.noItems, AllDrafts.nil⟩

theorem every_unpackDocumentKey {d d' : DocumentDraft} {key : DocumentKey} {v : MessagePack}
    (before : d.Every T P Q) (valid : V v) (success : d.unpackKey key v = .ok d') :
    d'.Every T P Q := by
  cases key with
  | version =>
      obtain ⟨version, read, made⟩ := bind_eq_ok success
      obtain rfl := Except.ok.inj made
      exact ⟨inherits.text valid read, before.length, before.units⟩
  | units =>
      obtain ⟨list, read, made⟩ := bind_eq_ok success
      obtain rfl := Except.ok.inj made
      obtain ⟨length, all⟩ := every_unpackNodes inherits before.units v valid read
      exact ⟨before.version, length, all⟩

theorem every_unpackDocument (entries : List Entry) : ∀ {d d' : DocumentDraft}, d.Every T P Q →
    (∀ entry ∈ entries, V entry.2) → d.unpackEntries entries = .ok d' → d'.Every T P Q := by
  induction entries with
  | nil => exact fun before _ success => Except.ok.inj success ▸ before
  | cons entry rest ih =>
      obtain ⟨k, v⟩ := entry
      intro d d' before valid success
      obtain ⟨here, later⟩ := List.forall_mem_cons.mp valid
      rw [DocumentDraft.unpackEntries] at success
      obtain ⟨key, _, success⟩ := bind_eq_ok success
      split at success
      · exact ih before later success
      · obtain ⟨e, read, success⟩ := bind_eq_ok success
        exact ih (every_unpackDocumentKey inherits before here read) later success

theorem every_unpackDocumentAll (keys : List DocumentKey) : ∀ (vs : List MessagePack)
    {d d' : DocumentDraft}, d.Every T P Q → (∀ v ∈ vs, V v) → d.unpackAll keys vs = .ok d' →
    d'.Every T P Q := by
  induction keys with
  | nil =>
      intro vs d d' before _ success
      cases vs with
      | nil => exact Except.ok.inj success ▸ before
      | cons v vs => contradiction
  | cons key keys ih =>
      intro vs d d' before valid success
      cases vs with
      | nil => contradiction
      | cons v vs =>
          obtain ⟨here, later⟩ := List.forall_mem_cons.mp valid
          obtain ⟨e, read, success⟩ := bind_eq_ok success
          exact ih vs (every_unpackDocumentKey inherits before here read) later success

/-- What a value passes on holds throughout the wire form that is read from it. -/
theorem throughout_unpack {v : MessagePack} {d : WireDocument} (valid : V v)
    (success : WireDocument.unpack v = .ok d) : d.Throughout T P Q := by
  have nothing : ({} : WireDocument).Throughout T P Q :=
    ⟨inherits.noText, inherits.noItems, by simp⟩
  match v with
  | .nil => exact Except.ok.inj success ▸ nothing
  | .map entries =>
      obtain ⟨draft, read, rfl⟩ := map_eq_ok success
      exact (every_unpackDocument inherits entries inherits.noDocument (inherits.entries valid)
        read).finish
  | .list [] => exact Except.ok.inj success ▸ nothing
  | .list (item :: items) =>
      obtain ⟨draft, read, rfl⟩ := map_eq_ok success
      exact (every_unpackDocumentAll inherits _ _ inherits.noDocument (inherits.items valid).2
        read).finish
  | .bool _ | .int _ | .str _ | .other => contradiction

end Document

end LiteralHoist.Document
