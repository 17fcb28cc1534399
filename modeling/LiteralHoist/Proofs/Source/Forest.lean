import LiteralHoist.Proofs.Source.Arena
import LiteralHoist.Source.Walk
import Mathlib.Data.List.Nodup
import Mathlib.Data.Set.Card
import Mathlib.Order.Interval.Finset.Nat

/-!
# Forests

A forest shows which numbers of a tree stand below which.  It is given by its first tree and by
the trees after it, so that every fact about the nodes below a node is an induction over forests
and needs no bound on the depth.

A tree follows a forest if the children of each number are the roots of what is below it.  If no
number comes twice in the forest, a node has one parent, and the walks of the tree are the walks of
the forest.
-/

set_option autoImplicit false

namespace LiteralHoist.Source

/-- Trees of numbers, one after the other. -/
inductive Forest where
  | nil
  | cons (id : NodeId) (below rest : Forest)

namespace Tree

def Child (t : Tree) (parent id : NodeId) : Prop :=
  ∃ n, t.Holds parent n ∧ id ∈ n.form.children

inductive Below (t : Tree) (top : NodeId) : NodeId → Prop where
  | refl : Below t top top
  | step {parent id : NodeId} : Below t top parent → t.Child parent id → Below t top id

def IsClass (t : Tree) (id : NodeId) : Prop :=
  ∃ pos d, t.Holds id ⟨pos, .classDecl d⟩

/-- A number is below a class, and no other class is between them: the class is the innermost one
that encloses the number. -/
inductive OwnedBy (t : Tree) (classId : NodeId) : NodeId → Prop where
  | direct {id : NodeId} : t.Child classId id → OwnedBy t classId id
  | deeper {parent id : NodeId} : OwnedBy t classId parent → ¬ t.IsClass parent →
      t.Child parent id → OwnedBy t classId id

theorem OwnedBy.isBelow {t : Tree} {classId id : NodeId} (owned : t.OwnedBy classId id) :
    t.Below classId id := by
  induction owned with
  | direct child => exact .step .refl child
  | deeper _ _ child ih => exact .step ih child

/-- Nothing is below the number 0 but itself. -/
theorem Below.ne_zero {t : Tree} {top id : NodeId} (lower : t.Below top id) {n : Node}
    (held : t.Holds id n) : top ≠ 0 := by
  induction lower generalizing n with
  | refl => exact held.ne_zero
  | step _ child ih =>
      obtain ⟨m, parent, _⟩ := child
      exact ih parent

theorem Below.trans {t : Tree} {a b c : NodeId} (upper : t.Below a b) (lower : t.Below b c) :
    t.Below a c := by
  induction lower with
  | refl => exact upper
  | step _ child ih => exact .step ih child

end Tree

/-- What is below a number is in every list that has the number and is closed under children. -/
theorem mem_of_below {t : Tree} {top id : NodeId} (inside : List NodeId)
    (start : top ∈ inside)
    (closed : ∀ x ∈ inside, ((t.peek x).map fun n => n.form.children).getD [] ⊆ inside)
    (lower : t.Below top id) : id ∈ inside := by
  induction lower with
  | refl => exact start
  | step _ child ih =>
      obtain ⟨n, held, member⟩ := child
      have children := closed _ ih
      rw [held.peek_eq] at children
      exact children member

namespace Forest

def roots : Forest → List NodeId
  | nil => []
  | cons id _ rest => id :: rest.roots

def ids : Forest → List NodeId
  | nil => []
  | cons id below rest => id :: (below.ids ++ rest.ids)

/-- All numbers in the same order, each with the path from its parent upwards. -/
def visits : Path → Forest → List (NodeId × Path)
  | _, nil => []
  | above, cons id below rest =>
    (id, above) :: (below.visits (id :: above) ++ rest.visits above)

def height : Forest → Nat
  | nil => 0
  | cons _ below rest => max (below.height + 1) rest.height

/-- The forest without what is below the numbers that are not entered. -/
def clip (enter : NodeId → Bool) : Forest → Forest
  | nil => nil
  | cons id below rest => cons id (if enter id then below.clip enter else nil) (rest.clip enter)

def append : Forest → Forest → Forest
  | nil, g => g
  | cons id below rest, g => cons id below (rest.append g)

def Follows (t : Tree) : Forest → Prop
  | nil => True
  | cons id below rest =>
    (∃ n, t.Holds id n ∧ n.form.children = below.roots) ∧ below.Follows t ∧ rest.Follows t

/-- A number stands in the forest, with a forest below it. -/
def Occurs : Forest → NodeId → Forest → Prop
  | nil, _, _ => False
  | cons i b rest, id, below =>
    (i = id ∧ b = below) ∨ b.Occurs id below ∨ rest.Occurs id below

variable {t : Tree}

theorem roots_append (f g : Forest) : (f.append g).roots = f.roots ++ g.roots := by
  induction f with
  | nil => rfl
  | cons id below rest _ ih => simp [append, roots, ih]

theorem ids_append (f g : Forest) : (f.append g).ids = f.ids ++ g.ids := by
  induction f with
  | nil => rfl
  | cons id below rest _ ih => simp [append, ids, ih]

theorem Follows.append {f g : Forest} (left : f.Follows t) (right : g.Follows t) :
    (f.append g).Follows t := by
  induction f with
  | nil => exact right
  | cons id below rest _ ih => exact ⟨left.1, left.2.1, ih left.2.2⟩

theorem Follows.keeps {t' : Tree} {f : Forest} (follows : f.Follows t)
    (keeps : ∀ id n, t.Holds id n → t'.Holds id n) : f.Follows t' := by
  induction f with
  | nil => trivial
  | cons id below rest ihBelow ihRest =>
      obtain ⟨⟨n, held, children⟩, followsBelow, followsRest⟩ := follows
      exact ⟨⟨n, keeps id n held, children⟩, ihBelow followsBelow, ihRest followsRest⟩

/-- A tree follows one forest at most with given roots. -/
theorem Follows.unique {f g : Forest} (first : f.Follows t) (second : g.Follows t)
    (same : f.roots = g.roots) : f = g := by
  induction f generalizing g with
  | nil =>
      cases g with
      | nil => rfl
      | cons id below rest => simp [roots] at same
  | cons id below rest ihBelow ihRest =>
      cases g with
      | nil => simp [roots] at same
      | cons id' below' rest' =>
          simp only [roots, List.cons.injEq] at same
          obtain ⟨rfl, later⟩ := same
          obtain ⟨⟨n, held, children⟩, followsBelow, followsRest⟩ := first
          obtain ⟨⟨n', held', children'⟩, followsBelow', followsRest'⟩ := second
          rw [held.unique held', children'] at children
          rw [ihBelow followsBelow followsBelow' children.symm,
            ihRest followsRest followsRest' later]

theorem roots_subset_ids (f : Forest) : f.roots ⊆ f.ids := by
  induction f with
  | nil => simp [roots]
  | cons id below rest _ ih =>
      intro x member
      simp only [roots, List.mem_cons] at member
      simp only [ids, List.mem_cons, List.mem_append]
      rcases member with same | later
      · exact .inl same
      · exact .inr (.inr (ih later))

theorem map_fst_visits (f : Forest) : ∀ above : Path, (f.visits above).map Prod.fst = f.ids := by
  induction f with
  | nil => intro above; rfl
  | cons id below rest ihBelow ihRest =>
      intro above
      simp [visits, ids, ihBelow, ihRest]

theorem height_le_length (f : Forest) : f.height ≤ f.ids.length := by
  induction f with
  | nil => simp [height]
  | cons id below rest ihBelow ihRest =>
      simp only [height, ids, List.length_cons, List.length_append]
      omega

theorem Follows.holds {f : Forest} (follows : f.Follows t) {id : NodeId} (member : id ∈ f.ids) :
    ∃ n, t.Holds id n := by
  induction f with
  | nil => simp [ids] at member
  | cons i below rest ihBelow ihRest =>
      simp only [ids, List.mem_cons, List.mem_append] at member
      rcases member with rfl | inside | later
      · obtain ⟨n, held, _⟩ := follows.1
        exact ⟨n, held⟩
      · exact ihBelow follows.2.1 inside
      · exact ihRest follows.2.2 later

theorem length_le_size {f : Forest} (follows : f.Follows t) (nodup : f.ids.Nodup) :
    f.ids.length ≤ t.size := by
  rw [← List.toFinset_card_of_nodup nodup]
  have inside : f.ids.toFinset ⊆ Finset.Icc 1 t.size := by
    intro (id : Nat) member
    obtain ⟨n, held⟩ := follows.holds (List.mem_toFinset.mp member)
    exact Finset.mem_Icc.mpr ⟨Nat.pos_of_ne_zero held.ne_zero, held.le_size⟩
  simpa using Finset.card_le_card inside

theorem encard_setOf_mem {p : NodeId → Prop} {ids : List NodeId} (nodup : ids.Nodup)
    (same : ∀ id, id ∈ ids ↔ p id) : {id | p id}.encard = ids.length := by
  have finite : {id | p id} = (ids.toFinset : Set NodeId) := by
    ext id
    simp [same]
  rw [finite, Set.encard_coe_eq_coe_finsetCard, List.toFinset_card_of_nodup nodup]

/-! ## Parts of a forest -/

theorem occurs_of_mem {f : Forest} {id : NodeId} (member : id ∈ f.ids) :
    ∃ below, f.Occurs id below := by
  induction f with
  | nil => simp [ids] at member
  | cons i b rest ihBelow ihRest =>
      simp only [ids, List.mem_cons, List.mem_append] at member
      rcases member with same | inside | later
      · exact ⟨b, .inl ⟨same.symm, rfl⟩⟩
      · obtain ⟨below, occurs⟩ := ihBelow inside
        exact ⟨below, .inr (.inl occurs)⟩
      · obtain ⟨below, occurs⟩ := ihRest later
        exact ⟨below, .inr (.inr occurs)⟩

theorem Occurs.sublist {f below : Forest} {id : NodeId} (occurs : f.Occurs id below) :
    (id :: below.ids).Sublist f.ids := by
  induction f with
  | nil => exact occurs.elim
  | cons i b rest ihBelow ihRest =>
      simp only [ids]
      rcases occurs with ⟨rfl, rfl⟩ | inside | later
      · exact (List.sublist_append_left _ _).cons_cons _
      · exact ((ihBelow inside).trans (List.sublist_append_left _ _)).cons _
      · exact ((ihRest later).trans (List.sublist_append_right _ _)).cons _

theorem Occurs.follows {f below : Forest} {id : NodeId} (occurs : f.Occurs id below)
    (follows : f.Follows t) : (cons id below nil).Follows t := by
  induction f with
  | nil => exact occurs.elim
  | cons i b rest ihBelow ihRest =>
      rcases occurs with ⟨rfl, rfl⟩ | inside | later
      · exact ⟨follows.1, follows.2.1, trivial⟩
      · exact ihBelow inside follows.2.1
      · exact ihRest later follows.2.2

theorem ids_single (id : NodeId) (below : Forest) :
    (cons id below nil).ids = id :: below.ids := by
  simp [ids]

theorem Occurs.nodup {f below : Forest} {id : NodeId} (occurs : f.Occurs id below)
    (nodup : f.ids.Nodup) : (cons id below nil).ids.Nodup := by
  rw [ids_single]
  exact nodup.sublist occurs.sublist

/-! ## Parents -/

def allChildren (t : Tree) (f : Forest) : List NodeId :=
  f.ids.flatMap fun id => ((t.peek id).map fun n => n.form.children).getD []

theorem perm_allChildren {f : Forest} (follows : f.Follows t) :
    (f.roots ++ f.allChildren t).Perm f.ids := by
  induction f with
  | nil => exact .refl _
  | cons id below rest ihBelow ihRest =>
      obtain ⟨⟨n, held, children⟩, followsBelow, followsRest⟩ := follows
      have step : (cons id below rest).allChildren t =
          below.roots ++ (below.allChildren t ++ rest.allChildren t) := by
        simp [allChildren, ids, held.peek_eq, children]
      rw [step]
      simp only [roots, ids, List.cons_append]
      refine .cons _ ?_
      have regroup : (rest.roots ++ (below.roots ++
          (below.allChildren t ++ rest.allChildren t))).Perm
          ((below.roots ++ below.allChildren t) ++ (rest.roots ++ rest.allChildren t)) := by
        refine (List.perm_append_comm_assoc _ _ _).trans ?_
        rw [List.append_assoc]
        exact (List.perm_append_comm_assoc _ _ _).append_left _
      exact regroup.trans ((ihBelow followsBelow).append (ihRest followsRest))

theorem Follows.child_mem {f : Forest} (follows : f.Follows t) {p id : NodeId}
    (parent : p ∈ f.ids) (child : t.Child p id) : id ∈ f.ids := by
  obtain ⟨n, held, member⟩ := child
  refine (perm_allChildren follows).subset (List.mem_append_right _ ?_)
  exact List.mem_flatMap.mpr ⟨p, parent, by simpa [held.peek_eq] using member⟩

theorem parent_unique {f : Forest} (follows : f.Follows t) (nodup : f.ids.Nodup)
    {p q id : NodeId} (first : p ∈ f.ids) (second : q ∈ f.ids) (childOfP : t.Child p id)
    (childOfQ : t.Child q id) : p = q := by
  have distinct := ((perm_allChildren follows).nodup_iff.mpr nodup).of_append_right
  obtain ⟨n, heldP, memberP⟩ := childOfP
  obtain ⟨m, heldQ, memberQ⟩ := childOfQ
  by_contra different
  have apart := (List.nodup_flatMap.mp distinct).2
  have symmetric : Std.Symm (Function.onFun List.Disjoint fun id =>
      ((t.peek id).map fun n => n.form.children).getD []) :=
    ⟨fun a b disjoint => List.Disjoint.symm disjoint⟩
  have separate := apart.forall first second different
  simp only [Function.onFun, heldP.peek_eq, heldQ.peek_eq] at separate
  exact separate memberP memberQ

theorem root_not_child {f : Forest} (follows : f.Follows t) (nodup : f.ids.Nodup)
    {p id : NodeId} (parent : p ∈ f.ids) (root : id ∈ f.roots) : ¬ t.Child p id := by
  rintro ⟨n, held, member⟩
  have distinct := (perm_allChildren follows).nodup_iff.mpr nodup
  refine (List.disjoint_of_nodup_append distinct) root ?_
  exact List.mem_flatMap.mpr ⟨p, parent, by simpa [held.peek_eq] using member⟩

/-! ## Subtrees -/

theorem Follows.below_mem {f : Forest} (follows : f.Follows t) {top id : NodeId}
    (member : top ∈ f.ids) (below : t.Below top id) : id ∈ f.ids := by
  induction below with
  | refl => exact member
  | step _ child ih => exact follows.child_mem ih child

theorem Follows.exists_root {f : Forest} (follows : f.Follows t) {id : NodeId}
    (member : id ∈ f.ids) : ∃ root ∈ f.roots, t.Below root id := by
  induction f with
  | nil => simp [ids] at member
  | cons i below rest ihBelow ihRest =>
      obtain ⟨⟨n, held, children⟩, followsBelow, followsRest⟩ := follows
      simp only [ids, List.mem_cons, List.mem_append] at member
      rcases member with rfl | inside | later
      · exact ⟨id, by simp [roots], .refl⟩
      · obtain ⟨root, isRoot, lower⟩ := ihBelow followsBelow inside
        have child : t.Child i root := ⟨n, held, children ▸ isRoot⟩
        exact ⟨i, by simp [roots], (Tree.Below.refl.step child).trans lower⟩
      · obtain ⟨root, isRoot, lower⟩ := ihRest followsRest later
        exact ⟨root, by simp [roots, isRoot], lower⟩

/-- The subtree of a number consists of what stands below it in the forest. -/
theorem Occurs.below_iff {f below : Forest} {top id : NodeId} (occurs : f.Occurs top below)
    (follows : f.Follows t) : t.Below top id ↔ id ∈ (cons top below nil).ids := by
  have part := occurs.follows follows
  constructor
  · intro lower
    exact part.below_mem (by simp [ids]) lower
  · intro member
    obtain ⟨root, isRoot, lower⟩ := part.exists_root member
    have same : root = top := by simpa [roots] using isRoot
    exact same ▸ lower

/-- A number is below one root at most. -/
theorem root_unique {f : Forest} (follows : f.Follows t) (nodup : f.ids.Nodup)
    {a b id : NodeId} (first : a ∈ f.roots) (second : b ∈ f.roots) (belowFirst : t.Below a id)
    (belowSecond : t.Below b id) : a = b := by
  induction f with
  | nil => simp [roots] at first
  | cons i below rest _ ih =>
      obtain ⟨head, followsBelow, followsRest⟩ := follows
      have followsHead : (cons i below .nil).Follows t := ⟨head, followsBelow, trivial⟩
      have split : (cons i below rest).ids = (cons i below .nil).ids ++ rest.ids := by
        simp [ids]
      rw [split, List.nodup_append] at nodup
      obtain ⟨_, nodupRest, apart⟩ := nodup
      have inHead : t.Below i id → id ∈ (cons i below .nil).ids :=
        followsHead.below_mem (by simp [ids])
      have inRest : ∀ r ∈ rest.roots, t.Below r id → id ∈ rest.ids :=
        fun r isRoot => followsRest.below_mem (rest.roots_subset_ids isRoot)
      simp only [roots, List.mem_cons] at first second
      rcases first with rfl | first <;> rcases second with rfl | second
      · rfl
      · exact absurd rfl (apart id (inHead belowFirst) id (inRest b second belowSecond))
      · exact absurd rfl (apart id (inHead belowSecond) id (inRest a first belowFirst))
      · exact ih followsRest nodupRest first second

/-- In the order of a forest, what stands above a number comes before it. -/
theorem pairwise_not_below {f : Forest} (follows : f.Follows t) (nodup : f.ids.Nodup) :
    f.ids.Pairwise fun earlier later => ¬ t.Below later earlier := by
  induction f with
  | nil => exact .nil
  | cons id below rest ihBelow ihRest =>
      obtain ⟨_, followsBelow, followsRest⟩ := follows
      simp only [ids, List.nodup_cons, List.mem_append, not_or, List.nodup_append] at nodup
      obtain ⟨⟨notBelow, notRest⟩, nodupBelow, nodupRest, apart⟩ := nodup
      simp only [ids, List.pairwise_cons, List.pairwise_append, List.mem_append]
      refine ⟨?_, ihBelow followsBelow nodupBelow, ihRest followsRest nodupRest, ?_⟩
      · rintro later (inside | after) lower
        · exact notBelow (followsBelow.below_mem inside lower)
        · exact notRest (followsRest.below_mem after lower)
      · intro earlier inside later after lower
        exact apart earlier inside earlier (followsRest.below_mem after lower) rfl

/-- Of two numbers above a third, one is above the other. -/
theorem below_or_below {f : Forest} (follows : f.Follows t) (nodup : f.ids.Nodup)
    {a b id : NodeId} (aIn : a ∈ f.ids) (bIn : b ∈ f.ids) (first : t.Below a id)
    (second : t.Below b id) : t.Below a b ∨ t.Below b a := by
  induction first with
  | refl => exact .inr second
  | @step p id upper child ih =>
      cases second with
      | refl => exact .inl (.step upper child)
      | step upper' child' =>
          obtain rfl := parent_unique follows nodup (follows.below_mem aIn upper)
            (follows.below_mem bIn upper') child child'
          exact ih upper'

end Forest

end LiteralHoist.Source
