import LiteralHoist.Proofs.Document.Reread

/-!
# Counting the nodes of a wire form

The wire form of a unit has the attributes of all nodes below the root.  So units that are written
alike have as many nodes with given attributes, whatever the numbers of the nodes are.
-/

set_option autoImplicit false

namespace LiteralHoist.Document

open LiteralHoist.Source

def attributesAt (t : Tree) (id : NodeId) : Option Attributes :=
  (t.peek id).map nodeAttributes

def describedBy (t : Tree) (described : Attributes → Prop) : Set NodeId :=
  {id | t.Below t.root id ∧ ∃ n, t.Holds id n ∧ described (nodeAttributes n)}

def WrittenAlike (t u : Tree) (id id' : NodeId) : Prop :=
  ∃ depth depth' w, wireNode t depth id = .ok w ∧ wireNode u depth' id' = .ok w

def Rule.entries (w : Wire) : Rule → List (Option Wire)
  | .list slot _ => w.many slot
  | .one slot _ _ => [w.one slot]

/-- The keys that a kind uses have what is written for the places of a form, in their order. -/
theorem entries_filledWire (child : NodeId → Option Wire) (n : Node) :
    (rules n.form.kind).flatMap (Rule.entries (filledWire child n)) = n.form.places.map child := by
  obtain ⟨pos, form⟩ := n
  rw [← map_rule_fillings, ← Form.map_id_demands, ← demands_fillings, List.flatMap_map,
    List.map_map, List.map_flatMap]
  refine List.flatMap_congr fun f filled => ?_
  have written := written_filledWire child pos form f filled
  cases f with
  | list slot kinds ids =>
      rw [show Rule.entries (filledWire child ⟨pos, form⟩) (Filling.list slot kinds ids).rule =
        ids.map child from written]
      simp [Filling.demands, Demand.must]
  | one slot kinds required id =>
      have single : (filledWire child ⟨pos, form⟩).one slot = child id := written
      simp [Rule.entries, Filling.rule, Filling.demands, single]

theorem eq_zero_of_wireNode {t : Tree} {depth : Nat} {id : NodeId}
    (run : wireNode t depth id = .ok none) : id = 0 := by
  cases id with
  | zero => rfl
  | succ id =>
      cases depth with
      | zero => contradiction
      | succ depth =>
          have found := run
          simp only [wireNode] at found
          obtain ⟨entry, held, made⟩ := bind_eq_ok found
          cases entry with
          | none => contradiction
          | some n =>
              obtain ⟨_, present⟩ := present_of_wireNode (n := n) held run
              contradiction

section Alike
variable {t u : Tree}

theorem WrittenAlike.zero_iff {id id' : NodeId} (alike : WrittenAlike t u id id') :
    id = 0 ↔ id' = 0 := by
  obtain ⟨depth, depth', w, run, run'⟩ := alike
  constructor
  · rintro rfl
    rw [wireNode_zero] at run
    exact eq_zero_of_wireNode (Except.ok.inj run ▸ run')
  · rintro rfl
    rw [wireNode_zero] at run'
    exact eq_zero_of_wireNode (Except.ok.inj run' ▸ run)

theorem forall₂_writtenAlike {depth depth' : Nat} {child child' : NodeId → Option Wire}
    {xs ys : List NodeId} (left : ∀ x ∈ xs, wireNode t depth x = .ok (child x))
    (right : ∀ y ∈ ys, wireNode u depth' y = .ok (child' y)) (same : xs.map child = ys.map child') :
    List.Forall₂ (WrittenAlike t u) xs ys := by
  induction xs generalizing ys with
  | nil =>
      obtain rfl : ys = [] := by simpa using same.symm
      exact .nil
  | cons x xs ih =>
      cases ys with
      | nil => simp at same
      | cons y ys =>
          rw [List.forall_mem_cons] at left right
          simp only [List.map_cons, List.cons.injEq] at same
          exact .cons ⟨depth, depth', _, left.1, same.1 ▸ right.1⟩ (ih left.2 right.2 same.2)

/-- Nodes that are written alike have the same attributes, and their children are written alike. -/
theorem WrittenAlike.inv {id id' : NodeId} {n n' : Node} (alike : WrittenAlike t u id id')
    (held : t.Holds id n) (held' : u.Holds id' n') :
    nodeAttributes n = nodeAttributes n' ∧
      List.Forall₂ (WrittenAlike t u) n.form.children n'.form.children := by
  obtain ⟨_, _, w, run, run'⟩ := alike
  obtain ⟨w, rfl⟩ := present_of_wireNode held run
  obtain ⟨depth, _, rfl, _⟩ := holds_of_wireNode run
  obtain ⟨depth', _, rfl, _⟩ := holds_of_wireNode run'
  obtain ⟨child, each, made⟩ := wireNode_inv held run
  obtain ⟨child', each', made'⟩ := wireNode_inv held' run'
  have wires : filledWire child n = filledWire child' n' := Option.some.inj (made.symm.trans made')
  have attrs : nodeAttributes n = nodeAttributes n' := by
    rw [← attrs_filledWire child n, wires, attrs_filledWire]
  have kinds : n.form.kind = n'.form.kind := by
    refine Kind.name_injective ?_
    rw [← kind_nodeAttributes n.pos n.form, ← kind_nodeAttributes n'.pos n'.form]
    exact congrArg (fun a => a.text .kind) attrs
  have places : n.form.places.map child = n'.form.places.map child' := by
    rw [← entries_filledWire, ← entries_filledWire, wires, kinds]
  refine ⟨attrs, List.rel_filter ?_ (forall₂_writtenAlike each each' places)⟩
  intro x y alike
  simp [alike.zero_iff]

/-- What is written for forests that are written alike is the same, node by node. -/
theorem attributesAt_forest {f g : Forest} (follows : f.Follows t) (follows' : g.Follows u)
    (alike : List.Forall₂ (WrittenAlike t u) f.roots g.roots) :
    f.ids.map (attributesAt t) = g.ids.map (attributesAt u) := by
  induction f generalizing g with
  | nil =>
      cases g with
      | nil => rfl
      | cons => cases alike
  | cons id below rest ihBelow ihRest =>
      cases g with
      | nil => cases alike
      | cons id' below' rest' =>
          obtain ⟨⟨n, held, children⟩, followsBelow, followsRest⟩ := follows
          obtain ⟨⟨n', held', children'⟩, followsBelow', followsRest'⟩ := follows'
          obtain ⟨here, later⟩ := List.forall₂_cons.mp alike
          obtain ⟨attrs, deeper⟩ := here.inv held held'
          rw [children, children'] at deeper
          simp only [Forest.ids, List.map_cons, List.map_append, attributesAt, held.peek_eq,
            held'.peek_eq, Option.map_some, attrs]
          rw [← ihBelow followsBelow followsBelow' deeper, ← ihRest followsRest followsRest' later]

end Alike

open Classical in
theorem encard_describedBy {t : Tree} {f : Forest} (shaped : Shaped t f)
    (described : Attributes → Prop) :
    (describedBy t described).encard =
      ((f.ids.map (attributesAt t)).countP fun a => ∃ b ∈ a, described b) := by
  rw [List.countP_map, List.countP_eq_length_filter]
  refine Forest.encard_setOf_mem (shaped.nodup.filter _) fun id => ?_
  rw [List.mem_filter, ← shaped.below_root]
  refine and_congr_right fun inUnit => ?_
  obtain ⟨n, held⟩ := shaped.follows.holds (shaped.below_root.mp inUnit)
  simp only [Function.comp_apply, attributesAt, held.peek_eq, Option.map_some, Option.mem_some_iff,
    exists_eq_left', decide_eq_true_iff]
  exact ⟨fun holds => ⟨n, held, holds⟩, fun ⟨n', held', holds⟩ => held.unique held' ▸ holds⟩

/-- Units that are written alike have as many nodes whose attributes have a property. -/
theorem encard_describedBy_of_same_wire {t u : Tree} (conforms : t.Conforms)
    (conforms' : u.Conforms) {w : Option Wire} (written : unitOfTree t = .ok w)
    (written' : unitOfTree u = .ok w) (described : Attributes → Prop) :
    (describedBy t described).encard = (describedBy u described).encard := by
  obtain ⟨f, shaped⟩ := conforms
  obtain ⟨g, shaped'⟩ := conforms'
  have alike : List.Forall₂ (WrittenAlike t u) f.roots g.roots := by
    rw [shaped.roots_eq, shaped'.roots_eq]
    exact .cons ⟨_, _, w, written, written'⟩ .nil
  rw [encard_describedBy shaped, encard_describedBy shaped',
    attributesAt_forest shaped.follows shaped'.follows alike]

end LiteralHoist.Document
