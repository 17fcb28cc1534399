import LiteralHoist.Proofs.Source.Walk

/-!
# The shape of trees

Each place of a form asks for nodes of certain kinds, and some places must not be empty.  A tree
has a shape if it follows a forest without repeated numbers from its root, and if every node of the
forest gets what its places ask for.  Such a tree is finite and unshared, and no operation on it
stops with a fault.

Within the shape, every number that is no class belongs to one innermost class: it is what a walk
from that class visits that does not go on into nested classes.
-/

set_option autoImplicit false

namespace LiteralHoist.Source

/-- What a place of a form asks for. -/
structure Demand where
  id : NodeId
  allowed : List Kind
  required : Bool

namespace Demand

def must (allowed : List Kind) (id : NodeId) : Demand :=
  ⟨id, allowed, true⟩

def may (allowed : List Kind) (id : NodeId) : Demand :=
  ⟨id, allowed, false⟩

def Met (t : Tree) (d : Demand) : Prop :=
  (d.id = 0 ∧ d.required = false) ∨ ∃ n, t.Holds d.id n ∧ n.kind ∈ d.allowed

end Demand

def Form.demands : Form → List Demand
  | .unit d => d.classes.map (.must [.classDecl])
  | .classDecl d => d.annotations.map (.must [.annot]) ++ d.members.map (.must Kind.members)
  | .method d =>
    d.annotations.map (.must [.annot]) ++ d.params.map (.must [.varDecl]) ++
      [.may [.block] d.body]
  | .varDecl d => d.annotations.map (.must [.annot]) ++ d.vars.map (.must [.namedVar])
  | .namedVar _ init => [.may Kind.expressions init]
  | .annot _ args => args.map (.must Kind.arguments)
  | .block stmts => stmts.map (.must Kind.statements)
  | .exprStmt x => [.must Kind.expressions x]
  | .return x => [.may Kind.expressions x]
  | .ifStmt c a b =>
    [.must Kind.expressions c, .must Kind.statements a, .may Kind.statements b]
  | .assign _ target value => [.must Kind.expressions target, .must Kind.expressions value]
  | .literal _ => []
  | .ident _ _ _ => []
  | .fieldAccess x _ _ _ => [.must Kind.expressions x]
  | .call recv _ args _ => .may Kind.expressions recv :: args.map (.must Kind.expressions)
  | .new _ args => args.map (.must Kind.expressions)
  | .parens x => [.must Kind.expressions x]
  | .binary _ x y _ => [.must Kind.expressions x, .must Kind.expressions y]
  | .unary _ x => [.must Kind.expressions x]

def Form.Admits (t : Tree) (f : Form) : Prop :=
  ∀ d ∈ f.demands, d.Met t

theorem Form.map_id_demands (f : Form) : f.demands.map Demand.id = f.places := by
  cases f <;> simp [demands, places, Demand.must, Demand.may, Function.comp_def]

theorem Demand.Met.holds {t : Tree} {allowed : List Kind} {id : NodeId}
    (met : (Demand.must allowed id).Met t) : ∃ n, t.Holds id n ∧ n.kind ∈ allowed := by
  rcases met with ⟨_, absurd⟩ | found
  · simp [Demand.must] at absurd
  · exact found

theorem Demand.Met.keeps {t t' : Tree} {d : Demand} (met : d.Met t)
    (keeps : ∀ id n, t.Holds id n → t'.Holds id n) : d.Met t' := by
  rcases met with empty | ⟨n, held, allowed⟩
  · exact .inl empty
  · exact .inr ⟨n, keeps _ n held, allowed⟩

/-- A tree is laid out as a forest and follows the grammar of places. -/
structure Shaped (t : Tree) (f : Forest) : Prop where
  roots_eq : f.roots = [t.root]
  follows : f.Follows t
  nodup : f.ids.Nodup
  admits : ∀ id ∈ f.ids, ∀ n, t.Holds id n → n.form.Admits t

/-- A tree whose nodes below the root form an unshared finite tree that follows the grammar. -/
def Tree.Conforms (t : Tree) : Prop :=
  ∃ f, Shaped t f

theorem Shaped.root_holds {t : Tree} {f : Forest} (shaped : Shaped t f) :
    ∃ n, t.Holds t.root n :=
  shaped.follows.holds (f.roots_subset_ids (by simp [shaped.roots_eq]))

theorem Shaped.eq_cons {t : Tree} {f : Forest} (shaped : Shaped t f) :
    ∃ below, f = .cons t.root below .nil := by
  have roots := shaped.roots_eq
  cases f with
  | nil => simp [Forest.roots] at roots
  | cons id below rest =>
      cases rest with
      | nil =>
          have same : id = t.root := by simpa [Forest.roots] using roots
          exact ⟨below, by rw [same]⟩
      | cons i b r => simp [Forest.roots] at roots

theorem Shaped.member_holds {t : Tree} {f : Forest} (shaped : Shaped t f) {id : NodeId}
    (member : id ∈ f.ids) {pos : Position} {d : ClassDecl}
    (held : t.Holds id ⟨pos, .classDecl d⟩) {m : NodeId} (isMember : m ∈ d.members) :
    ∃ n, t.Holds m n ∧ n.kind ∈ Kind.members := by
  have met := shaped.admits id member _ held (.must Kind.members m)
    (by simp only [Form.demands, List.mem_append, List.mem_map]; exact .inr ⟨m, isMember, rfl⟩)
  exact met.holds

theorem Shaped.annotation_holds {t : Tree} {f : Forest} (shaped : Shaped t f) {id : NodeId}
    (member : id ∈ f.ids) {pos : Position} {d : ClassDecl}
    (held : t.Holds id ⟨pos, .classDecl d⟩) {a : NodeId} (attached : a ∈ d.annotations) :
    ∃ n, t.Holds a n ∧ n.kind ∈ [Kind.annot] := by
  have met := shaped.admits id member _ held (.must [.annot] a)
    (by simp only [Form.demands, List.mem_append, List.mem_map]; exact .inl ⟨a, attached, rfl⟩)
  exact met.holds

theorem Shaped.class_children {t : Tree} {f : Forest} (shaped : Shaped t f) {id : NodeId}
    (member : id ∈ f.ids) {pos : Position} {d : ClassDecl}
    (held : t.Holds id ⟨pos, .classDecl d⟩) :
    (Form.classDecl d).children = d.annotations ++ d.members := by
  rw [Form.children, Form.places, List.filter_eq_self]
  intro x place
  rcases List.mem_append.mp place with attached | isMember
  · obtain ⟨n, here, _⟩ := shaped.annotation_holds member held attached
    simpa using here.ne_zero
  · obtain ⟨n, here, _⟩ := shaped.member_holds member held isMember
    simpa using here.ne_zero

theorem Shaped.child_of_member {t : Tree} {f : Forest} (shaped : Shaped t f) {id : NodeId}
    (member : id ∈ f.ids) {pos : Position} {d : ClassDecl}
    (held : t.Holds id ⟨pos, .classDecl d⟩) {m : NodeId} (isMember : m ∈ d.members) :
    t.Child id m := by
  refine ⟨_, held, ?_⟩
  rw [shaped.class_children member held]
  exact List.mem_append_right _ isMember

theorem Shaped.var_holds {t : Tree} {f : Forest} (shaped : Shaped t f) {id : NodeId}
    (member : id ∈ f.ids) {pos : Position} {d : VarDecl}
    (held : t.Holds id ⟨pos, .varDecl d⟩) {v : NodeId} (isVar : v ∈ d.vars) :
    ∃ pos name init, t.Holds v ⟨pos, .namedVar name init⟩ := by
  have met := shaped.admits id member _ held (.must [.namedVar] v)
    (by simp only [Form.demands, List.mem_append, List.mem_map]; exact .inr ⟨v, isVar, rfl⟩)
  obtain ⟨⟨pos, form⟩, here, kind⟩ := met.holds
  cases form with
  | namedVar name init => exact ⟨pos, name, init, here⟩
  | _ => simp [Node.kind, Form.kind] at kind

theorem Shaped.child_of_var {t : Tree} {f : Forest} (shaped : Shaped t f) {id : NodeId}
    (member : id ∈ f.ids) {pos : Position} {d : VarDecl}
    (held : t.Holds id ⟨pos, .varDecl d⟩) {v : NodeId} (isVar : v ∈ d.vars) : t.Child id v := by
  obtain ⟨_, _, _, here⟩ := shaped.var_holds member held isVar
  exact ⟨_, held, by simp [Form.children, Form.places, isVar, here.ne_zero]⟩

theorem Shaped.init_holds {t : Tree} {f : Forest} (shaped : Shaped t f) {id : NodeId}
    (member : id ∈ f.ids) {pos : Position} {name : Text} {init : NodeId}
    (held : t.Holds id ⟨pos, .namedVar name init⟩) : init = 0 ∨ ∃ n, t.Holds init n := by
  have met := shaped.admits id member _ held (.may Kind.expressions init)
    (by simp [Form.demands])
  rcases met with ⟨absent, _⟩ | ⟨n, here, _⟩
  · exact .inl absent
  · exact .inr ⟨n, here⟩

theorem child_of_init {t : Tree} {id init : NodeId} {pos : Position} {name : Text} {n : Node}
    (held : t.Holds id ⟨pos, .namedVar name init⟩) (here : t.Holds init n) :
    t.Child id init :=
  ⟨_, held, by simp [Form.children, Form.places, here.ne_zero]⟩

def isClassEntry : Option Node → Bool
  | some ⟨_, .classDecl _⟩ => true
  | _ => false

theorem isClassEntry_iff {t : Tree} {id : NodeId} :
    isClassEntry (t.peek id) = true ↔ t.IsClass id := by
  constructor
  · intro checked
    unfold isClassEntry at checked
    split at checked
    · rename_i pos d found
      exact ⟨pos, d, Tree.holds_of_peek found⟩
    · contradiction
  · rintro ⟨pos, d, held⟩
    rw [held.peek_eq]
    rfl

def Tree.staysIn (t : Tree) (id : NodeId) : Bool :=
  !isClassEntry (t.peek id)

theorem Tree.staysIn_iff {t : Tree} {id : NodeId} : t.staysIn id = true ↔ ¬ t.IsClass id := by
  rw [← isClassEntry_iff, Tree.staysIn]
  simp

namespace Forest

variable {t : Tree}

theorem roots_clip (enter : NodeId → Bool) (f : Forest) : (f.clip enter).roots = f.roots := by
  induction f with
  | nil => rfl
  | cons id below rest _ ih => simp [clip, roots, ih]

theorem clip_child_mem {enter : NodeId → Bool} {f : Forest} (follows : f.Follows t)
    {p id : NodeId} (parent : p ∈ (f.clip enter).ids)
    (entered : enter p = true) (child : t.Child p id) : id ∈ (f.clip enter).ids := by
  induction f with
  | nil => simp [clip, ids] at parent
  | cons i below rest ihBelow ihRest =>
      obtain ⟨⟨n, held, children⟩, followsBelow, followsRest⟩ := follows
      simp only [clip, ids, List.mem_cons, List.mem_append] at parent ⊢
      rcases parent with rfl | inside | later
      · obtain ⟨m, held', member⟩ := child
        rw [held'.unique held, children, ← roots_clip enter] at member
        rw [entered]
        exact .inr (.inl (roots_subset_ids _ member))
      · cases here : enter i with
        | false => simp [here, ids] at inside
        | true =>
            rw [if_pos here] at inside
            exact .inr (.inl (ihBelow followsBelow inside))
      · exact .inr (.inr (ihRest followsRest later))

theorem owned_of_mem_clip {classId : NodeId} {f : Forest} (follows : f.Follows t)
    (start : ∀ root ∈ f.roots, t.OwnedBy classId root) {id : NodeId}
    (member : id ∈ (f.clip t.staysIn).ids) : t.OwnedBy classId id := by
  induction f with
  | nil => simp [clip, ids] at member
  | cons i below rest ihBelow ihRest =>
      obtain ⟨⟨n, held, children⟩, followsBelow, followsRest⟩ := follows
      have here : t.OwnedBy classId i := start i (by simp [roots])
      simp only [clip, ids, List.mem_cons, List.mem_append] at member
      rcases member with rfl | inside | later
      · exact here
      · cases stays : t.staysIn i with
        | false => simp [stays, ids] at inside
        | true =>
            rw [if_pos stays] at inside
            refine ihBelow followsBelow (fun root isRoot => ?_) inside
            exact .deeper here (Tree.staysIn_iff.mp stays) ⟨n, held, children ▸ isRoot⟩
      · exact ihRest followsRest (fun root isRoot => start root (by simp [roots, isRoot])) later

/-- What belongs to a class is what stands below it in the forest clipped at nested classes. -/
theorem Occurs.owned_iff {f below : Forest} {classId id : NodeId}
    (occurs : f.Occurs classId below) (follows : f.Follows t) :
    t.OwnedBy classId id ↔ id ∈ (below.clip t.staysIn).ids := by
  obtain ⟨⟨n, held, children⟩, followsBelow, _⟩ := occurs.follows follows
  constructor
  · intro owned
    induction owned with
    | direct child =>
        obtain ⟨m, held', member⟩ := child
        rw [held'.unique held, children, ← roots_clip t.staysIn] at member
        exact roots_subset_ids _ member
    | deeper _ outside child ih =>
        exact clip_child_mem followsBelow ih (Tree.staysIn_iff.mpr outside) child
  · refine owned_of_mem_clip followsBelow fun root isRoot => ?_
    exact .direct ⟨n, held, children ▸ isRoot⟩

end Forest

theorem Shaped.below_root {t : Tree} {f : Forest} (shaped : Shaped t f) {id : NodeId} :
    t.Below t.root id ↔ id ∈ f.ids := by
  constructor
  · intro lower
    refine shaped.follows.below_mem (f.roots_subset_ids ?_) lower
    simp [shaped.roots_eq]
  · intro member
    obtain ⟨root, isRoot, lower⟩ := shaped.follows.exists_root member
    have same : root = t.root := by simpa [shaped.roots_eq] using isRoot
    exact same ▸ lower

/-- A number belongs to one class at most. -/
theorem Shaped.owner_unique {t : Tree} {f : Forest} (shaped : Shaped t f) {c x id : NodeId}
    (firstIn : c ∈ f.ids) (secondIn : x ∈ f.ids) (firstClass : t.IsClass c)
    (secondClass : t.IsClass x) (first : t.OwnedBy c id) (second : t.OwnedBy x id) : c = x := by
  induction first with
  | direct child =>
      cases second with
      | direct child' =>
          exact Forest.parent_unique shaped.follows shaped.nodup firstIn secondIn child child'
      | deeper owned outside child' =>
          have inside := shaped.follows.below_mem secondIn owned.isBelow
          have same := Forest.parent_unique shaped.follows shaped.nodup firstIn inside child child'
          exact absurd (same ▸ firstClass) outside
  | deeper owned outside child ih =>
      have inside := shaped.follows.below_mem firstIn owned.isBelow
      cases second with
      | direct child' =>
          have same := Forest.parent_unique shaped.follows shaped.nodup inside secondIn child child'
          exact absurd (same ▸ secondClass) outside
      | deeper owned' _ child' =>
          have inside' := shaped.follows.below_mem secondIn owned'.isBelow
          have same := Forest.parent_unique shaped.follows shaped.nodup inside inside' child child'
          exact ih (same ▸ owned')

/-- A conforming tree in which every place is below the root. -/
def Tree.Compact (t : Tree) : Prop :=
  ∃ f, Shaped t f ∧ f.ids.length = t.size

theorem Tree.Compact.conforms {t : Tree} (compact : t.Compact) : t.Conforms := by
  obtain ⟨f, shaped, _⟩ := compact
  exact ⟨f, shaped⟩

/-- The numbers of the forest are those of the places. -/
theorem Shaped.perm_range {t : Tree} {f : Forest} (shaped : Shaped t f)
    (full : f.ids.length = t.size) : f.ids.Perm (List.range' 1 t.size) := by
  have inside : f.ids ⊆ List.range' 1 t.size := by
    intro (id : Nat) member
    obtain ⟨n, held⟩ := shaped.follows.holds member
    have positive := held.ne_zero
    have bound := held.le_size
    rw [List.mem_range'_1]
    omega
  have subperm := List.subperm_of_subset shaped.nodup inside
  exact subperm.perm_of_length_le (by simp [full])

theorem Tree.Compact.below_of_le {t : Tree} (compact : t.Compact) {id : Nat} (present : id ≠ 0)
    (inside : id ≤ t.size) : t.Below t.root id := by
  obtain ⟨f, shaped, full⟩ := compact
  refine shaped.below_root.mpr ((shaped.perm_range full).symm.subset ?_)
  rw [List.mem_range'_1]
  omega

theorem Tree.Compact.below_root {t : Tree} (compact : t.Compact) {id : NodeId} {n : Node}
    (held : t.Holds id n) : t.Below t.root id :=
  compact.below_of_le held.ne_zero held.le_size

end LiteralHoist.Source
