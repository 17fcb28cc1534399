import LiteralHoist.Proofs.Source.Conforming

/-!
# Orders of the nodes

The numbers of a tree in the order of a walk, which has each node before those below it, and in
postorder, which has each node after them.  Both go through the children of a node in source order.
-/

set_option autoImplicit false

namespace LiteralHoist.Source

namespace Tree

def walkOrder (t : Tree) : Except Fault (List NodeId) :=
  List.reverse <$> t.walk (fun path seen => .ok (true, path.head?.toList ++ seen)) t.root []

/-- The numbers below a list of numbers and these themselves, each right after those below it. -/
inductive Postorder (t : Tree) : List NodeId → List NodeId → Prop where
  | nil : Postorder t [] []
  | cons {id : NodeId} {children rest below after : List NodeId} :
      t.children id = .ok children → Postorder t children below → Postorder t rest after →
      Postorder t (id :: rest) (below ++ id :: after)

theorem child_iff {t : Tree} {p id : NodeId} :
    t.Child p id ↔ ∃ children, t.children p = .ok children ∧ id ∈ children := by
  constructor
  · rintro ⟨n, held, member⟩
    exact ⟨n.form.children, held.children_eq, member⟩
  · rintro ⟨children, given, member⟩
    rw [Tree.children, form?] at given
    cases there : t.node? p with
    | error fault =>
        rw [there] at given
        contradiction
    | ok entry =>
        rw [there] at given
        cases entry with
        | none =>
            obtain rfl : [] = children := Except.ok.inj given
            contradiction
        | some n =>
            obtain rfl : n.form.children = children := Except.ok.inj given
            exact ⟨n, there, member⟩

end Tree

theorem Shaped.walkOrder_eq {t : Tree} {f : Forest} (shaped : Shaped t f) :
    t.walkOrder = .ok f.ids := by
  obtain ⟨below, rfl⟩ := shaped.eq_cons
  have gathered := Forest.walk_gather_ids (fun path seen => .ok (true, path.head?.toList ++ seen))
    (fun id => [id]) shaped.follows shaped.nodup fun v _ g => rfl
  simpa [Tree.walkOrder] using gathered

/-- In a tree without other nodes, every number but the root is a child in one place. -/
theorem Shaped.exists_unique_place {t : Tree} {f : Forest} (shaped : Shaped t f)
    (whole : ∀ p n, t.Holds p n → p ∈ f.ids) {id : NodeId} (member : id ∈ f.ids)
    (inner : id ≠ t.root) :
    ∃! place : NodeId × Nat, ∃ children, t.children place.1 = .ok children ∧
      children[place.2]? = some id := by
  have listed := (Forest.perm_allChildren shaped.follows).mem_iff.mpr member
  rw [shaped.roots_eq, List.singleton_append, List.mem_cons, or_iff_right inner] at listed
  obtain ⟨p, inside, isChild⟩ := List.mem_flatMap.mp listed
  obtain ⟨n, held⟩ := shaped.follows.holds inside
  have among : id ∈ n.form.children := by simpa [held.peek_eq] using isChild
  obtain ⟨i, here⟩ := List.getElem?_of_mem among
  refine ⟨(p, i), ⟨_, held.children_eq, here⟩, ?_⟩
  rintro ⟨q, j⟩ ⟨others, given, there⟩
  have child : t.Child q id := Tree.child_iff.mpr ⟨others, given, List.mem_of_getElem? there⟩
  have parent : q ∈ f.ids := by
    obtain ⟨m, held', _⟩ := child
    exact whole q m held'
  obtain rfl : q = p :=
    Forest.parent_unique shaped.follows shaped.nodup parent inside child ⟨n, held, among⟩
  obtain rfl : n.form.children = others := Except.ok.inj (held.children_eq.symm.trans given)
  have distinct := shaped.follows.nodup_children shaped.nodup inside held
  have bound := (List.getElem?_eq_some_iff.mp here).1
  have same : i = j := (List.getElem?_inj bound distinct).mp (here.trans there.symm)
  rw [same]

namespace Tree.Postorder

variable {t : Tree}

theorem append {first second before after : List NodeId} (left : t.Postorder first before)
    (right : t.Postorder second after) : t.Postorder (first ++ second) (before ++ after) := by
  induction left with
  | nil => exact right
  | cons given inside _ _ ih =>
      rw [List.append_assoc]
      exact .cons given inside ih

/-- There is one postorder at most. -/
theorem unique {ids first second : List NodeId} (one : t.Postorder ids first)
    (other : t.Postorder ids second) : first = second := by
  induction one generalizing second with
  | nil =>
      cases other
      rfl
  | cons given _ _ ihBelow ihRest =>
      cases other with
      | cons given' inside later =>
          obtain rfl := Except.ok.inj (given.symm.trans given')
          rw [ihBelow inside, ihRest later]

theorem subset {ids order : List NodeId} (listed : t.Postorder ids order) : ids ⊆ order := by
  induction listed with
  | nil => exact List.Subset.refl []
  | cons _ _ _ _ ih =>
      refine List.cons_subset.mpr ⟨by simp, fun id member => ?_⟩
      simp [ih member]

/-- In a postorder that ascends, a child has a smaller number than its parent. -/
theorem child_lt {ids order : List NodeId} (listed : t.Postorder ids order)
    (ascends : order.Pairwise (· < ·)) {p id : NodeId} (parent : p ∈ order)
    (child : t.Child p id) : id < p := by
  induction listed with
  | nil => simp at parent
  | @cons top children rest below after given inside later ihBelow ihRest =>
      obtain ⟨ascendsBelow, ascendsRest, across⟩ := List.pairwise_append.mp ascends
      rcases List.mem_append.mp parent with within | here
      · exact ihBelow ascendsBelow within
      · rcases List.mem_cons.mp here with rfl | beyond
        · obtain ⟨others, given', member⟩ := child_iff.mp child
          obtain rfl := Except.ok.inj (given.symm.trans given')
          exact across id (inside.subset member) p (by simp)
        · exact ihRest (List.pairwise_cons.mp ascendsRest).2 beyond

end Tree.Postorder

end LiteralHoist.Source
