import LiteralHoist.Proofs.Source.Conforming
import LiteralHoist.Proofs.Source.Renumber
import Mathlib.Data.List.Basic

/-!
# Numbers in the order of reading

A tree that is read gets its numbers in the order in which its nodes are complete: each after those
below it.  This is an order of the numbers of any compact tree.  Counting in this order renumbers
the tree, and the nodes in this order with the new numbers are the renumbered tree.
-/

set_option autoImplicit false

namespace LiteralHoist.Source

/-- The numbers below a number and the number itself, each after those below it.  The depth bounds
the nesting. -/
def Tree.postorder (t : Tree) : Nat → NodeId → List NodeId
  | 0, _ => []
  | depth + 1, id =>
    match t.peek id with
    | none => []
    | some n => n.form.places.flatMap (t.postorder depth) ++ [id]

section Postorder
variable {t : Tree} {depth : Nat}

theorem Tree.postorder_zero (t : Tree) (depth : Nat) : t.postorder depth 0 = [] := by
  cases depth with
  | zero => rfl
  | succ depth => simp [postorder, peek, node?_zero]

theorem Tree.Holds.postorder_eq {id : NodeId} {n : Node} (held : t.Holds id n) :
    t.postorder (depth + 1) id = n.form.places.flatMap (t.postorder depth) ++ [id] := by
  simp only [postorder, held.peek_eq]

theorem Form.flatMap_children {α : Type} {g : NodeId → List α} (empty : g 0 = []) (form : Form) :
    form.children.flatMap g = form.places.flatMap g := by
  rw [Form.children]
  induction form.places with
  | nil => rfl
  | cons id rest ih =>
      by_cases absent : id = 0
      · subst absent
        simpa [empty] using ih
      · rw [List.filter_cons_of_pos (by simpa using absent), List.flatMap_cons, ih]
        rfl

theorem Forest.Follows.perm_postorder {f : Forest} (follows : f.Follows t) :
    ∀ {depth : Nat}, f.height ≤ depth → (f.roots.flatMap (t.postorder depth)).Perm f.ids := by
  induction f with
  | nil => exact fun _ => .refl _
  | cons id below rest ihBelow ihRest =>
      intro depth bound
      obtain ⟨⟨n, held, children⟩, followsBelow, followsRest⟩ := follows
      rw [Forest.height] at bound
      obtain ⟨less, rfl⟩ : ∃ less, depth = less + 1 := ⟨depth - 1, by omega⟩
      have inside : (below.roots.flatMap (t.postorder less)).Perm below.ids :=
        ihBelow followsBelow (by omega)
      have later : (rest.roots.flatMap (t.postorder (less + 1))).Perm rest.ids :=
        ihRest followsRest (by omega)
      rw [← children, Form.flatMap_children (t.postorder_zero less)] at inside
      rw [Forest.roots, Forest.ids, List.flatMap_cons, held.postorder_eq, ← List.cons_append]
      exact ((List.perm_append_singleton _ _).trans (inside.cons id)).append later

end Postorder

def rankIn (ids : List NodeId) (id : NodeId) : NodeId :=
  if id ∈ ids then ids.idxOf id + 1 else id

section Rank
variable {ids : List NodeId}

theorem rankIn_of_mem {id : NodeId} (member : id ∈ ids) :
    rankIn ids id = (ids.idxOf id + 1 : Nat) :=
  if_pos member

theorem rankIn_of_not_mem {id : NodeId} (outside : id ∉ ids) : rankIn ids id = id :=
  if_neg outside

theorem map_rankIn (nodup : ids.Nodup) : ids.map (rankIn ids) = List.range' 1 ids.length := by
  refine List.ext_getElem (by simp) fun i inside _ => ?_
  rw [List.length_map] at inside
  rw [List.getElem_map, List.getElem_range', rankIn_of_mem (List.getElem_mem inside),
    nodup.idxOf_getElem, Nat.one_mul, Nat.add_comm]

variable {count : Nat} (perm : ids.Perm (List.range' 1 count))
include perm

theorem mem_iff_of_perm {id : Nat} : id ∈ ids ↔ 0 < id ∧ id ≤ count := by
  rw [perm.mem_iff, List.mem_range'_1]
  omega

theorem rankIn_mem {id : NodeId} (member : id ∈ ids) : rankIn ids id ∈ ids := by
  have bound := List.idxOf_lt_length_of_mem member
  rw [perm.length_eq, List.length_range'] at bound
  rw [rankIn_of_mem member, mem_iff_of_perm perm]
  exact ⟨Nat.succ_pos _, bound⟩

theorem rankIn_injective : Function.Injective (rankIn ids) := by
  intro a b same
  by_cases aIn : a ∈ ids
  · by_cases bIn : b ∈ ids
    · rw [rankIn_of_mem aIn, rankIn_of_mem bIn] at same
      exact (List.idxOf_inj aIn).mp (Nat.succ.inj same)
    · rw [rankIn_of_not_mem bIn] at same
      exact absurd (same ▸ rankIn_mem perm aIn) bIn
  · rw [rankIn_of_not_mem aIn] at same
    by_cases bIn : b ∈ ids
    · exact absurd (same ▸ rankIn_mem perm bIn) aIn
    · rwa [rankIn_of_not_mem bIn] at same

end Rank

def Tree.transcript (t : Tree) (ρ : NodeId → NodeId) (ids : List NodeId) : Tree where
  nodes := (ids.map fun id => (t.peek id).map (Node.renumber ρ)).toArray

section Transcript
variable {t : Tree} {ρ : NodeId → NodeId} {ids : List NodeId}

theorem Tree.size_transcript : (t.transcript ρ ids).size = ids.length := by
  simp [transcript, size]

theorem Tree.transcript_nil : t.transcript ρ [] = {} :=
  rfl

theorem Tree.transcript_snoc {id : NodeId} {n : Node} (held : t.Holds id n) :
    t.transcript ρ (ids ++ [id]) = ((t.transcript ρ ids).push (n.renumber ρ)).1 := by
  simp [transcript, push, held.peek_eq]

/-- Counting in any order of the places renumbers a tree. -/
theorem Tree.renumbers_transcript (perm : ids.Perm (List.range' 1 t.size))
    (standing : ∀ id ∈ ids, ∃ n, t.Holds id n) :
    t.Renumbers (rankIn ids)
      { t.transcript (rankIn ids) ids with root := rankIn ids t.root } where
  injective := rankIn_injective perm
  zero := rankIn_of_not_mem fun member => by simp [mem_iff_of_perm perm] at member
  beyond id outside := rankIn_of_not_mem fun member =>
    Nat.not_le_of_gt outside ((mem_iff_of_perm perm).mp member).2
  root_eq := rfl
  size_eq := by
    change (t.transcript (rankIn ids) ids).size = t.size
    rw [size_transcript, perm.length_eq, List.length_range']
  node?_eq id := by
    change (t.transcript (rankIn ids) ids).node? _ = _
    by_cases member : id ∈ ids
    · obtain ⟨n, held⟩ := standing id member
      have bound := List.idxOf_lt_length_of_mem member
      rw [rankIn_of_mem member, held.node?_eq]
      simp [node?, transcript, held.peek_eq, bound]
    · rw [rankIn_of_not_mem member]
      rw [mem_iff_of_perm perm] at member
      by_cases absent : id = 0
      · subst absent
        rw [node?_zero, node?_zero]
        rfl
      · have beyond : t.size < id := by
          by_contra inside
          exact member ⟨Nat.pos_of_ne_zero absent, Nat.le_of_not_lt inside⟩
        rw [node?_of_size_lt beyond, node?_of_size_lt]
        · rfl
        · rwa [size_transcript, perm.length_eq, List.length_range']

end Transcript

/-- The numbers of two trees at the same positions correspond; a number that stands at no position
stays as it is. -/
structure Tree.SamePositions (t t' : Tree) (ρ : NodeId → NodeId) : Prop where
  at_position : ∀ position, t'.locate t'.root position = (t.locate t.root position).map ρ
  elsewhere : ∀ id, (∀ position, t.locate t.root position ≠ some id) → ρ id = id

theorem Tree.locate_append {t : Tree} (first second : List Nat) :
    ∀ id, t.locate id (first ++ second) = (t.locate id first).bind (t.locate · second) := by
  induction first with
  | nil => exact fun _ => rfl
  | cons i rest ih =>
      intro id
      simp only [List.cons_append, locate]
      cases t.peek id with
      | none => rfl
      | some n =>
          simp only
          cases n.form.children[i]? with
          | none => rfl
          | some child => exact ih child

theorem Tree.Below.exists_position {t : Tree} {top id : NodeId} (lower : t.Below top id) :
    ∃ position, t.locate top position = some id := by
  induction lower with
  | refl => exact ⟨[], rfl⟩
  | step _ child ih =>
      obtain ⟨position, there⟩ := ih
      obtain ⟨n, held, member⟩ := child
      obtain ⟨i, place⟩ := List.getElem?_of_mem member
      refine ⟨position ++ [i], ?_⟩
      rw [locate_append, there]
      simp [locate, held.peek_eq, place]

/-- The map of numbers between two compact trees is given by the positions. -/
theorem Tree.Renumbers.samePositions {t t' : Tree} {ρ : NodeId → NodeId}
    (same : t.Renumbers ρ t') (compact : t.Compact) : t.SamePositions t' ρ where
  at_position position := by
    rw [same.root_eq]
    exact same.locate_eq position t.root
  elsewhere id nowhere := by
    by_cases beyond : t.size < id
    · exact same.beyond id beyond
    · by_cases absent : id = 0
      · rw [absent, same.zero]
      · obtain ⟨position, there⟩ :=
          (compact.below_of_le absent (Nat.le_of_not_lt beyond)).exists_position
        exact absurd there (nowhere position)

end LiteralHoist.Source
