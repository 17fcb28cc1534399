import LiteralHoist.Proofs.Document.Decoded
import LiteralHoist.Proofs.Document.Drafts

/-!
# Positions

The positions of all nodes of a document that was read fit in 64 bits, from either encoding: a
number that does not fit is refused or wraps around when it is read.
-/

set_option autoImplicit false

namespace LiteralHoist.Document

open LiteralHoist.Source

/-- The numbers of a draft fit, and so do those of all drafts below it and in its background. -/
abbrev Draft.Fits (d : Draft) : Prop :=
  d.Every Attributes.Fits fun _ => True

abbrev AllFit (ds : List (Option Draft)) : Prop :=
  AllDrafts Attributes.Fits (fun _ => True) ds

namespace Attributes.Fits
variable {a : Attributes}

theorem empty : ({} : Attributes).Fits := by
  exact fun _ => rfl

theorem setNumber (fits : a.Fits) {n : Int} (fit : fits64 n = true) (key : NumberKey) :
    (a.setNumber key n).Fits := by
  intro k
  simp only [Attributes.setNumber]
  split
  · exact fit
  · exact fits k

end Attributes.Fits

theorem fits_readNumber {old n : Int} {v : Json} (fits : fits64 old = true)
    (success : readNumber old v = .ok n) : fits64 n = true := by
  cases v with
  | null => exact Except.ok.inj success ▸ fits
  | num text =>
      simp only [readNumber] at success
      split at success
      · split at success
        · rename_i fit
          exact Except.ok.inj success ▸ fit
        · contradiction
      · contradiction
  | _ => contradiction

theorem fits_readAttribute {d d' : Draft} {key : Key} {v : Json} (fits : d.Fits)
    (success : readAttribute d key v = .ok d') : d'.Fits := by
  cases key with
  | number k =>
      obtain ⟨n, read, made⟩ := bind_eq_ok success
      obtain rfl := Except.ok.inj made
      exact fits.setAttrs (fits.attrs.setNumber (fits_readNumber (fits.attrs k) read) k) _
  | text k | words k | field =>
      obtain ⟨_, _, made⟩ := bind_eq_ok success
      obtain rfl := Except.ok.inj made
      refine fits.setAttrs ?_ _
      exact fits.attrs
  | many slot | one slot => exact Except.ok.inj success ▸ fits

mutual

theorem fits_readNode {old new : Option Draft} (fits : ∀ d ∈ old, d.Fits) (v : Json)
    (success : readNode old v = .ok new) : ∀ d ∈ new, d.Fits := by
  match v with
  | .null =>
    rw [readNode] at success
    simp [← Except.ok.inj success]
  | .obj members =>
    rw [readNode] at success
    obtain ⟨d, read, rfl⟩ := map_eq_ok success
    rintro _ ⟨rfl⟩
    exact fits_readMembers (Draft.Every.getD fits Attributes.Fits.empty trivial) members read
  | .bool _ | .num _ | .str _ | .arr _ => simp [readNode] at success

theorem fits_readMembers {d d' : Draft} (fits : d.Fits) (members : List (Text × Json))
    (success : readMembers d members = .ok d') : d'.Fits := by
  match members with
  | [] =>
    rw [readMembers] at success
    exact Except.ok.inj success ▸ fits
  | (name, v) :: rest =>
    rw [readMembers] at success
    split at success
    · exact fits_readMembers fits rest success
    · rename_i slot _
      obtain ⟨list, read, success⟩ := bind_eq_ok success
      exact fits_readMembers (fits.setMany slot trivial (fits_readNodes (fits.lists slot) v read))
        rest success
    · rename_i slot _
      obtain ⟨child, read, success⟩ := bind_eq_ok success
      exact fits_readMembers (fits.setOne slot (fits_readNode (fits.singles slot) v read)) rest
        success
    · obtain ⟨e, read, success⟩ := bind_eq_ok success
      exact fits_readMembers (fits_readAttribute fits read) rest success

theorem fits_readNodes {old past : List (Option Draft)} (fits : AllFit (old ++ past)) (v : Json)
    {list : List (Option Draft) × List (Option Draft)} (success : readNodes old past v = .ok list) :
    AllFit (list.1 ++ list.2) := by
  match v with
  | .null =>
    rw [readNodes] at success
    exact Except.ok.inj success ▸ AllDrafts.nil
  | .arr [] =>
    rw [readNodes] at success
    exact Except.ok.inj success ▸ AllDrafts.nil
  | .arr (item :: items) =>
    rw [readNodes] at success
    · obtain ⟨nodes, read, made⟩ := bind_eq_ok success
      obtain rfl := Except.ok.inj made
      exact (fits_readNodeList fits (item :: items) read).append (fits.mono (List.drop_subset _ _))
    · simp
  | .bool _ | .num _ | .str _ | .obj _ => simp [readNodes] at success

theorem fits_readNodeList {old new : List (Option Draft)} (fits : AllFit old) (items : List Json)
    (success : readNodeList old items = .ok new) : AllFit new := by
  match items with
  | [] =>
    rw [readNodeList] at success
    exact Except.ok.inj success ▸ AllDrafts.nil
  | item :: items =>
    rw [readNodeList] at success
    obtain ⟨d, first, success⟩ := bind_eq_ok success
    obtain ⟨more, later, made⟩ := bind_eq_ok success
    obtain rfl := Except.ok.inj made
    exact (fits_readNodeList (fits.mono old.tail_subset) items later).cons
      (fits_readNode fits.head item first)

end

def DocumentDraft.Fits (d : DocumentDraft) : Prop :=
  AllFit (d.units ++ d.past)

theorem DocumentDraft.Fits.empty : ({} : DocumentDraft).Fits :=
  AllDrafts.nil

theorem DocumentDraft.Fits.finish {d : DocumentDraft} (fits : d.Fits) :
    ∀ w, some w ∈ d.finish.units → w.Every Attributes.Fits := by
  intro w member
  obtain ⟨c, listed, rfl⟩ := mem_finishList member
  exact (fits c (by simp [listed])).finish.every

theorem fits_readDocument (members : List (Text × Json)) : ∀ {d d' : DocumentDraft}, d.Fits →
    d.readMembers members = .ok d' → d'.Fits := by
  induction members with
  | nil => exact fun fits success => Except.ok.inj success ▸ fits
  | cons member rest ih =>
      obtain ⟨name, v⟩ := member
      intro d d' fits success
      rw [DocumentDraft.readMembers] at success
      split at success
      · exact ih fits success
      · obtain ⟨version, _, success⟩ := bind_eq_ok success
        refine ih ?_ success
        exact fits
      · obtain ⟨list, read, success⟩ := bind_eq_ok success
        refine ih ?_ success
        exact fits_readNodes fits v read

theorem fits_ofJson {v : Json} {d : WireDocument} (success : WireDocument.ofJson v = .ok d) :
    ∀ w, some w ∈ d.units → w.Every Attributes.Fits := by
  cases v with
  | null => simp [← Except.ok.inj success]
  | obj members =>
      obtain ⟨draft, read, rfl⟩ := map_eq_ok success
      exact (fits_readDocument members DocumentDraft.Fits.empty read).finish
  | _ => contradiction

theorem fits_bmod (n : Int) : fits64 (n.bmod 0x10000000000000000) = true := by
  have lower := @Int.le_bmod n 0x10000000000000000 (by decide)
  have upper := @Int.bmod_lt n 0x10000000000000000 (by decide)
  simp only [fits64, Bool.and_eq_true, decide_eq_true_eq]
  omega

theorem fits_unpackNumber {n : Int} {v : MessagePack} (success : unpackNumber v = .ok n) :
    fits64 n = true := by
  cases v with
  | nil => exact Except.ok.inj success ▸ rfl
  | int m => exact Except.ok.inj success ▸ fits_bmod m
  | _ => contradiction

theorem fits_unpackKey {a a' : Attributes} {key : Key} {v : MessagePack} (fits : a.Fits)
    (success : a.unpackKey key v = .ok a') : a'.Fits := by
  cases key with
  | number k =>
      obtain ⟨n, read, made⟩ := bind_eq_ok success
      exact Except.ok.inj made ▸ fits.setNumber (fits_unpackNumber read) k
  | text k | words k | field =>
      obtain ⟨_, _, made⟩ := bind_eq_ok success
      obtain rfl := Except.ok.inj made
      exact fits
  | many slot | one slot => exact Except.ok.inj success ▸ fits

/-- Every value passes on numbers that fit, whatever it is. -/
theorem inherits_fits : Inherits (fun _ => True) (fun _ => True) Attributes.Fits fun _ => True where
  items _ := ⟨trivial, fun _ _ => trivial⟩
  entries _ _ _ := trivial
  text _ _ := trivial
  attributes _ := fits_unpackKey
  noText := trivial
  noAttributes := Attributes.Fits.empty
  noItems := trivial

theorem fits_unpack {v : MessagePack} {d : WireDocument} (success : WireDocument.unpack v = .ok d) :
    ∀ w, some w ∈ d.units → w.Every Attributes.Fits :=
  fun w member => ((throughout_unpack inherits_fits trivial success).units w member).every

def PositionsFit (t : Tree) : Prop :=
  ∀ id n, t.Holds id n → fits64 n.pos.line = true ∧ fits64 n.pos.col = true

theorem PositionsFit.push {t : Tree} (fits : PositionsFit t) {a : Attributes} (fit : a.Fits)
    (form : Form) : PositionsFit (t.push ⟨a.pos, form⟩).1 := by
  intro id n held
  rcases Tree.holds_of_push held with rfl | old
  · exact ⟨fit .line, fit .col⟩
  · exact fits id n old

theorem hereditary_positionsFit :
    Hereditary
      (fun w _ t _ t' => w.Every Attributes.Fits → PositionsFit t → PositionsFit t')
      (fun ws _ t _ t' => (∀ w, some w ∈ ws → w.Every Attributes.Fits) → PositionsFit t →
        PositionsFit t') where
  nil _ _ _ fits := fits
  skip again every := again fun w member => every w (by simp [member])
  cons _ first _ later every fits :=
    later (fun w member => every w (by simp [member])) (first (every _ (by simp)) fits)
  node {w allowed t form u} added lists singles every fits := by
    obtain ⟨here, below, alone⟩ := every.inv
    have above := added.places.preserves
      (fun slot kinds v ids v' run => lists slot kinds v ids v' run (below slot))
      (fun slot c kinds v x v' child run =>
        singles slot c kinds v x v' child run (alone slot c child)) fits
    exact above.push here form

theorem fits_readWire {codec : Codec} {bytes : List UInt8} {d : WireDocument}
    (success : Document.readWire codec bytes = .ok d) :
    ∀ w, some w ∈ d.units → w.Every Attributes.Fits := by
  cases codec with
  | json =>
      simp only [Document.readWire] at success
      split at success
      · contradiction
      · split at success
        · rename_i read
          exact Except.ok.inj success ▸ fits_ofJson read
        · contradiction
  | messagePack =>
      simp only [Document.readWire] at success
      split at success
      · contradiction
      · split at success
        · rename_i read
          exact Except.ok.inj success ▸ fits_unpack read
        · contradiction
  | unknown code => contradiction

/-- The position of every node of a document that was read fits in 64 bits. -/
theorem positionsFit_of_read {codec : Codec} {bytes : List UInt8} {doc : Document}
    (success : Document.read codec bytes = .ok doc) {t : Tree} (member : t ∈ doc.trees) :
    PositionsFit t := by
  obtain ⟨d, u, wire, listed, ofUnit⟩ := treeOfUnit_of_read success member
  obtain ⟨built, root, added, rfl⟩ := treeOfUnit_eq ofUnit
  have start : PositionsFit {} := by
    intro id n held
    exact absurd (Nat.le_zero.mp held.le_size) held.ne_zero
  have fits : PositionsFit built := by
    rcases addOption_cases added with ⟨_, _, rfl⟩ | ⟨w, rfl, run⟩
    · exact start
    · exact hereditary_positionsFit.addNode w [.unit] {} root built run
        (fits_readWire wire w listed) start
  exact fun id n held => fits id n held

end LiteralHoist.Document
