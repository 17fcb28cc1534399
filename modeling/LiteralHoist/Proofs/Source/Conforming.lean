import LiteralHoist.Proofs.Source.Shape

/-!
# Conforming trees

What it means for a tree to conform, without its forest: every number that is reached from the root
has a node, gets what its places ask for, and stands in one place, and no node is below itself.

`Tree.Stands` is the grammar of places as a judgement on a number and a bound on the depth, so that
what works through a tree from the top is proved to end and to find what it needs by an induction
on its own bound.
-/

set_option autoImplicit false

namespace LiteralHoist.Source

/-- A number stands in a place of a node that is reached from the root: the place of an index. -/
def Tree.Occupies (t : Tree) (id : NodeId) (place : NodeId × Nat) : Prop :=
  t.Below t.root place.1 ∧ ∃ n, t.Holds place.1 n ∧ n.form.places[place.2]? = some id

/-- A tree whose root is a unit and whose nodes form an unshared finite tree below it that follows
the grammar of places. -/
structure Tree.WellFormed (t : Tree) : Prop where
  unit : ∃ pos d, t.Holds t.root ⟨pos, .unit d⟩
  admits : ∀ id, t.Below t.root id → ∃ n, t.Holds id n ∧ n.form.Admits t
  acyclic : ∀ id x, t.Below t.root id → t.Child id x → ¬ t.Below x id
  unshared : ∀ id, t.Below t.root id → id ≠ t.root → ∃! place, t.Occupies id place
  topmost : ∀ place, ¬ t.Occupies t.root place

section Conforms
variable {t : Tree} {f : Forest}

theorem child_of_place {p id i : NodeId} {n n' : Node} (held : t.Holds p n)
    (place : n.form.places[i]? = some id) (here : t.Holds id n') : t.Child p id := by
  refine ⟨n, held, List.mem_filter.mpr ⟨List.mem_of_getElem? place, ?_⟩⟩
  simpa using here.ne_zero

theorem Forest.Follows.nodup_children (follows : f.Follows t) (nodup : f.ids.Nodup) {p : NodeId}
    (member : p ∈ f.ids) {n : Node} (held : t.Holds p n) : n.form.children.Nodup := by
  obtain ⟨below, occurs⟩ := Forest.occurs_of_mem member
  obtain ⟨⟨m, held', children⟩, followsBelow, _⟩ := occurs.follows follows
  have distinct := (List.nodup_cons.mp (nodup.sublist occurs.sublist)).2
  rw [held.unique held', children]
  exact ((Forest.perm_allChildren followsBelow).nodup_iff.mpr distinct).of_append_left

/-- A node has each of its children in one place only. -/
theorem place_unique {n : Node} (distinct : n.form.children.Nodup) {id i j : NodeId}
    (present : id ≠ 0) (first : n.form.places[i]? = some id)
    (second : n.form.places[j]? = some id) : i = j := by
  rw [Form.children, List.Nodup, List.pairwise_filter, List.pairwise_iff_getElem] at distinct
  obtain ⟨iLt, atI⟩ := List.getElem?_eq_some_iff.mp first
  obtain ⟨jLt, atJ⟩ := List.getElem?_eq_some_iff.mp second
  have apart : ∀ a b : Nat, (aLt : a < n.form.places.length) → (bLt : b < n.form.places.length) →
      n.form.places[a] = id → n.form.places[b] = id → ¬ a < b := by
    intro a b aLt bLt atA atB less
    exact distinct a b aLt bLt less (by simpa [atA] using present) (by simpa [atB] using present)
      (atA.trans atB.symm)
  have notLess := apart i j iLt jLt atI atJ
  have notGreater := apart j i jLt iLt atJ atI
  exact Nat.le_antisymm (Nat.le_of_not_lt notGreater) (Nat.le_of_not_lt notLess)

theorem Forest.Follows.acyclic (follows : f.Follows t) (nodup : f.ids.Nodup) {p id : NodeId}
    (member : p ∈ f.ids) (child : t.Child p id) : ¬ t.Below id p := by
  intro lower
  obtain ⟨below, occurs⟩ := Forest.occurs_of_mem member
  obtain ⟨⟨m, held', children⟩, followsBelow, _⟩ := occurs.follows follows
  obtain ⟨n, held, isChild⟩ := child
  rw [held.unique held', children] at isChild
  have inside := followsBelow.below_mem (below.roots_subset_ids isChild) lower
  exact (List.nodup_cons.mp (nodup.sublist occurs.sublist)).1 inside

theorem Tree.Conforms.wellFormed (conforms : t.Conforms)
    (unit : ∃ pos d, t.Holds t.root ⟨pos, .unit d⟩) : t.WellFormed := by
  obtain ⟨f, shaped⟩ := conforms
  refine ⟨unit, fun id inUnit => ?_, fun id x inUnit child => ?_, fun id inUnit other => ?_,
    fun place occupied => ?_⟩
  · obtain ⟨n, held⟩ := shaped.follows.holds (shaped.below_root.mp inUnit)
    exact ⟨n, held, shaped.admits id (shaped.below_root.mp inUnit) n held⟩
  · exact shaped.follows.acyclic shaped.nodup (shaped.below_root.mp inUnit) child
  · cases inUnit with
    | refl => exact absurd rfl other
    | @step p id upper child =>
        have pIn := shaped.below_root.mp upper
        obtain ⟨_, here⟩ := shaped.follows.holds (shaped.follows.child_mem pIn child)
        obtain ⟨n, held, isChild⟩ := child
        obtain ⟨i, place⟩ := List.getElem?_of_mem (List.mem_filter.mp isChild).1
        refine ⟨(p, i), ⟨upper, n, held, place⟩, ?_⟩
        rintro ⟨q, j⟩ ⟨upper', n', held', place'⟩
        obtain rfl : q = p := Forest.parent_unique shaped.follows shaped.nodup
          (shaped.below_root.mp upper') pIn (child_of_place held' place' here) ⟨n, held, isChild⟩
        obtain rfl := held'.unique held
        have distinct := shaped.follows.nodup_children shaped.nodup pIn held
        exact Prod.ext rfl (place_unique distinct here.ne_zero place' place)
  · obtain ⟨upper, n, held, place⟩ := occupied
    obtain ⟨pos, d, root⟩ := unit
    exact Forest.root_not_child shaped.follows shaped.nodup (shaped.below_root.mp upper)
      (by simp [shaped.roots_eq]) (child_of_place held place root)

end Conforms

/-- A node of an allowed kind stands at a number, and what is below it follows the grammar and is
less deep than a bound. -/
def Tree.Stands (t : Tree) : Nat → List Kind → NodeId → Prop
  | 0, _, _ => False
  | depth + 1, allowed, id => ∃ n, t.Holds id n ∧ n.kind ∈ allowed ∧
      ∀ d ∈ n.form.demands, (d.id = 0 ∧ d.required = false) ∨ t.Stands depth d.allowed d.id

def Tree.Fills (t : Tree) (depth : Nat) (f : Form) : Prop :=
  ∀ d ∈ f.demands, (d.id = 0 ∧ d.required = false) ∨ t.Stands depth d.allowed d.id

section Stands
variable {t : Tree} {depth : Nat} {allowed : List Kind} {id : NodeId}

theorem Tree.Stands.mono (stands : t.Stands depth allowed id) :
    ∀ {deeper : Nat}, depth ≤ deeper → t.Stands deeper allowed id := by
  induction depth generalizing allowed id with
  | zero => exact stands.elim
  | succ depth ih =>
      intro deeper less
      obtain ⟨more, rfl⟩ : ∃ more, deeper = more + 1 := ⟨deeper - 1, by omega⟩
      obtain ⟨n, held, kind, places⟩ := stands
      refine ⟨n, held, kind, fun d demanded => ?_⟩
      exact (places d demanded).imp_right fun here => ih here (by omega)

theorem Tree.Stands.allow (stands : t.Stands depth allowed id) {more : List Kind}
    (subset : allowed ⊆ more) : t.Stands depth more id := by
  cases depth with
  | zero => exact stands.elim
  | succ depth =>
      obtain ⟨n, held, kind, places⟩ := stands
      exact ⟨n, held, subset kind, places⟩

theorem Tree.Stands.inv (stands : t.Stands depth allowed id) :
    ∃ less pos form, depth = less + 1 ∧ t.Holds id ⟨pos, form⟩ ∧ form.kind ∈ allowed ∧
      t.Fills less form := by
  cases depth with
  | zero => exact stands.elim
  | succ depth =>
      obtain ⟨⟨pos, form⟩, held, kind, fills⟩ := stands
      exact ⟨depth, pos, form, rfl, held, kind, fills⟩

theorem Tree.Stands.ne_zero (stands : t.Stands depth allowed id) : id ≠ 0 := by
  obtain ⟨_, _, _, _, held, _⟩ := stands.inv
  exact held.ne_zero

theorem Tree.Fills.must {f : Form} (fills : t.Fills depth f)
    (demanded : .must allowed id ∈ f.demands) : t.Stands depth allowed id := by
  rcases fills _ demanded with ⟨_, absurd⟩ | here
  · simp [Demand.must] at absurd
  · exact here

theorem Tree.Fills.may {f : Form} (fills : t.Fills depth f)
    (demanded : .may allowed id ∈ f.demands) : id = 0 ∨ t.Stands depth allowed id :=
  (fills _ demanded).imp_left fun empty => empty.1

theorem Tree.Fills.list {f : Form} (fills : t.Fills depth f) {ids : List NodeId}
    (demanded : ids.map (.must allowed) ⊆ f.demands) : ∀ x ∈ ids, t.Stands depth allowed x :=
  fun _ member => fills.must (demanded (List.mem_map_of_mem member))

theorem Tree.Fills.place {f : Form} (fills : t.Fills depth f) (place : id ∈ f.places) :
    id = 0 ∨ ∃ allowed, t.Stands depth allowed id := by
  rw [← Form.map_id_demands] at place
  obtain ⟨d, demanded, rfl⟩ := List.mem_map.mp place
  exact (fills d demanded).imp And.left fun here => ⟨d.allowed, here⟩

theorem Forest.Follows.stands {f : Forest} (follows : f.Follows t)
    (admits : ∀ id ∈ f.ids, ∀ n, t.Holds id n → n.form.Admits t) :
    ∀ id ∈ f.roots, ∀ n allowed, t.Holds id n → n.kind ∈ allowed →
      t.Stands f.height allowed id := by
  induction f with
  | nil => simp [Forest.roots]
  | cons i below rest ihBelow ihRest =>
      intro id isRoot n allowed held kind
      obtain ⟨⟨m, held', children⟩, followsBelow, followsRest⟩ := follows
      simp only [Forest.roots, List.mem_cons] at isRoot
      rcases isRoot with rfl | later
      · have here : t.Stands (below.height + 1) allowed id := by
          refine ⟨n, held, kind, fun d demanded => ?_⟩
          refine (admits id (by simp [Forest.ids]) n held d demanded).imp_right ?_
          rintro ⟨k, heldBelow, allowedBelow⟩
          have place : d.id ∈ n.form.places := by
            rw [← Form.map_id_demands]
            exact List.mem_map_of_mem demanded
          have isChild : d.id ∈ below.roots := by
            rw [← children, ← held.unique held']
            exact List.mem_filter.mpr ⟨place, by simpa using heldBelow.ne_zero⟩
          exact ihBelow followsBelow (fun x inside => admits x (by simp [Forest.ids, inside]))
            d.id isChild k d.allowed heldBelow allowedBelow
        exact here.mono (Nat.le_max_left _ _)
      · exact (ihRest followsRest (fun x inside => admits x (by simp [Forest.ids, inside])) id
          later n allowed held kind).mono (Nat.le_max_right _ _)

/-- The whole of a conforming tree is less deep than its size. -/
theorem Tree.Conforms.stands (conforms : t.Conforms) {n : Node} (held : t.Holds t.root n)
    (kind : n.kind ∈ allowed) : t.Stands t.size allowed t.root := by
  obtain ⟨f, shaped⟩ := conforms
  have here := shaped.follows.stands shaped.admits t.root (by simp [shaped.roots_eq]) n allowed
    held kind
  refine here.mono (f.height_le_length.trans ?_)
  exact Forest.length_le_size shaped.follows shaped.nodup

end Stands

end LiteralHoist.Source
