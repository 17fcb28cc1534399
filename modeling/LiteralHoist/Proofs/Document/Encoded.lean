import LiteralHoist.Document.Codec
import LiteralHoist.Proofs.Source.Conforming

/-!
# The wire form of trees

The wire form of a node is made of its attributes and of the wire forms of its children.  Every
number that stands in a tree has one, and so every document whose units conform can be written.
-/

set_option autoImplicit false

namespace LiteralHoist.Document

open LiteralHoist.Source

/-- The wire form of a node whose children have given wire forms. -/
def filledWire (child : NodeId → Option Wire) (n : Node) : Wire :=
  (singleChildren n.form).foldl (fun w p => w.setOne p.1 (child p.2))
    ((listChildren n.form).foldl (fun w p => w.setMany p.1 (p.2.map child))
      (Wire.empty.setAttrs (nodeAttributes n)))

theorem place_of_listChildren {f : Form} {p : ListSlot × List NodeId}
    (member : p ∈ listChildren f) : p.2 ⊆ f.places := by
  cases f with
  | classDecl d | method d | varDecl d =>
      simp only [listChildren, List.mem_cons, List.not_mem_nil, or_false] at member
      rcases member with rfl | rfl <;> simp [Form.places]
  | _ => simp_all [listChildren, Form.places]

theorem place_of_singleChildren {f : Form} {p : Slot × NodeId}
    (member : p ∈ singleChildren f) : p.2 ∈ f.places := by
  cases f with
  | ifStmt c a b =>
      simp only [singleChildren, List.mem_cons, List.not_mem_nil, or_false] at member
      rcases member with rfl | rfl | rfl <;> simp [Form.places]
  | assign op x y | binary op x y type =>
      simp only [singleChildren, List.mem_cons, List.not_mem_nil, or_false] at member
      rcases member with rfl | rfl <;> simp [Form.places]
  | _ => simp_all [singleChildren, Form.places]

section Node
variable {t : Tree} {depth : Nat}

theorem wireNode_zero : wireNode t depth 0 = .ok none := by
  cases depth <;> rfl

theorem exists_child {xs : List NodeId} (each : ∀ x ∈ xs, ∃ w, wireNode t depth x = .ok w) :
    ∃ child : NodeId → Option Wire, ∀ x ∈ xs, wireNode t depth x = .ok (child x) := by
  refine ⟨fun x => (wireNode t depth x).toOption.join, fun x member => ?_⟩
  obtain ⟨w, run⟩ := each x member
  simp [run, Except.toOption]

/-- The wire form of a node, once those of its children are known. -/
theorem wireNode_eq {id : NodeId} {n : Node} (held : t.Holds id n) (child : NodeId → Option Wire)
    (each : ∀ x ∈ n.form.places, wireNode t depth x = .ok (child x)) :
    wireNode t (depth + 1) id = .ok (some (filledWire child n)) := by
  have positive := held.ne_zero
  have lists : ∀ (w : Wire), ∀ p ∈ listChildren n.form,
      (do return w.setMany p.1 (← p.2.mapM (wireNode t depth))) =
        (.ok (w.setMany p.1 (p.2.map child)) : Except Fault Wire) := by
    intro w p member
    rw [mapM_eq_ok (wireNode t depth) child p.2
      fun x inside => each x (place_of_listChildren member inside)]
    rfl
  have singles : ∀ (w : Wire), ∀ p ∈ singleChildren n.form,
      (do return w.setOne p.1 (← wireNode t depth p.2)) =
        (.ok (w.setOne p.1 (child p.2)) : Except Fault Wire) := by
    intro w p member
    rw [each p.2 (place_of_singleChildren member)]
    rfl
  cases id with
  | zero => exact absurd rfl positive
  | succ id =>
      simp only [wireNode, held.node?_eq, ok_bind]
      rw [foldlM_eq_ok _ _ (listChildren n.form) _ lists, ok_bind,
        foldlM_eq_ok _ _ (singleChildren n.form) _ singles]
      rfl

theorem children_of_place {f : Form} {x : NodeId} (place : x ∈ f.places) :
    (∃ p ∈ listChildren f, x ∈ p.2) ∨ ∃ p ∈ singleChildren f, x = p.2 := by
  cases f <;> simp_all [Form.places, listChildren, singleChildren] <;> tauto

/-- The wire form of a node is made of those of its children. -/
theorem wireNode_inv {id : NodeId} {n : Node} (held : t.Holds id n) {w : Option Wire}
    (run : wireNode t (depth + 1) id = .ok w) :
    ∃ child, (∀ x ∈ n.form.places, wireNode t depth x = .ok (child x)) ∧
      w = some (filledWire child n) := by
  have each : ∀ x ∈ n.form.places, ∃ w, wireNode t depth x = .ok w := by
    cases id with
    | zero => exact absurd rfl held.ne_zero
    | succ id =>
        simp only [wireNode, held.node?_eq, ok_bind] at run
        obtain ⟨_, lists, run⟩ := bind_eq_ok run
        obtain ⟨_, singles, _⟩ := bind_eq_ok run
        intro x place
        rcases children_of_place place with ⟨p, member, inside⟩ | ⟨p, member, rfl⟩
        · obtain ⟨_, all⟩ := exists_of_foldlM_eq_ok lists p member
          obtain ⟨w, _, made⟩ := exists_of_forall₂ (forall₂_of_mapM_eq_ok all) inside
          exact ⟨w, made⟩
        · exact exists_of_foldlM_eq_ok singles p member
  obtain ⟨child, chosen⟩ := exists_child each
  exact ⟨child, chosen, Except.ok.inj (run.symm.trans (wireNode_eq held child chosen))⟩

/-- What stands within a depth has a wire form. -/
theorem exists_wireNode : ∀ {depth : Nat} {allowed : List Kind} {id : NodeId},
    t.Stands depth allowed id → ∃ w, wireNode t depth id = .ok (some w) := by
  intro depth
  induction depth with
  | zero => exact fun stands => stands.elim
  | succ depth ih =>
      rintro allowed id ⟨n, held, _, places⟩
      have fills : t.Fills depth n.form := places
      have each : ∀ x ∈ n.form.places, ∃ w, wireNode t depth x = .ok w := by
        intro x place
        rcases fills.place place with rfl | ⟨kinds, here⟩
        · exact ⟨none, wireNode_zero⟩
        · obtain ⟨w, run⟩ := ih here
          exact ⟨some w, run⟩
      obtain ⟨child, chosen⟩ := exists_child each
      exact ⟨_, wireNode_eq held child chosen⟩

end Node

theorem exists_unitOfTree {t : Tree} (sound : t.root = 0 ∨ t.Conforms) :
    ∃ w, unitOfTree t = .ok w := by
  rcases sound with absent | conforms
  · exact ⟨none, by rw [unitOfTree, absent, wireNode_zero]⟩
  · obtain ⟨f, shaped⟩ := conforms
    obtain ⟨n, held⟩ := shaped.root_holds
    have whole : t.Stands t.size [n.kind] t.root :=
      Tree.Conforms.stands ⟨f, shaped⟩ held (by simp)
    obtain ⟨w, run⟩ := exists_wireNode (whole.mono (Nat.le_succ _))
    exact ⟨some w, run⟩

/-- A document whose units conform can be written. -/
theorem exists_toWire {doc : Document} (sound : ∀ t ∈ doc.trees, t.root = 0 ∨ t.Conforms) :
    ∃ w, doc.toWire = .ok w := by
  obtain ⟨units, run⟩ := exists_mapM_eq_ok unitOfTree doc.trees
    fun t member => exists_unitOfTree (sound t member)
  exact ⟨_, by rw [Document.toWire, run]; rfl⟩

end LiteralHoist.Document
