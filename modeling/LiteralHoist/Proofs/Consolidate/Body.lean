import LiteralHoist.Proofs.Consolidate.Qualifying

/-!
# Occurrences in the body and in the header of a class

A simple name refers to a field of a class in the body of the class only.  What belongs to a class
is in its body or in its header, the annotations that are attached to it, and the occurrences of
both are planned together: a plan stays within the body exactly if no literal of the header
qualifies for one of its values.
-/

set_option autoImplicit false

namespace LiteralHoist.Source

/-- A number is in the subtree of a member of a class. -/
def InBody (t : Tree) (d : ClassDecl) (id : NodeId) : Prop :=
  ∃ m ∈ d.members, t.Below m id

/-- A number is in the subtree of an annotation that is attached to a class. -/
def InHeader (t : Tree) (d : ClassDecl) (id : NodeId) : Prop :=
  ∃ a ∈ d.annotations, t.Below a id

theorem exists_child_above {t : Tree} {c id : NodeId} (owned : t.OwnedBy c id) :
    ∃ x, t.Child c x ∧ t.Below x id := by
  induction owned with
  | @direct id child => exact ⟨id, child, .refl⟩
  | deeper _ _ child ih =>
      obtain ⟨x, childOfClass, lower⟩ := ih
      exact ⟨x, childOfClass, lower.step child⟩

theorem allowed_in_argument {form : Form} (kind : form.kind ∈ Kind.arguments) {demand : Demand}
    (asked : demand ∈ form.demands) : demand.allowed ⊆ Kind.arguments := by
  have expressions : Kind.expressions ⊆ Kind.arguments := List.subset_cons_self _ _
  cases form <;> simp [Form.kind, Kind.arguments, Kind.expressions] at kind <;>
    simp only [Form.demands, List.mem_map, List.mem_cons, List.not_mem_nil, or_false] at asked <;>
    grind [Demand.must, Demand.may]

section Shaped
variable {t : Tree} {f : Forest} (shaped : Shaped t f)
include shaped

theorem Shaped.child_allowed {p id : NodeId} (inside : p ∈ f.ids) {n : Node} (held : t.Holds p n)
    (child : id ∈ n.form.children) :
    ∃ demand ∈ n.form.demands, ∃ m, t.Holds id m ∧ m.kind ∈ demand.allowed := by
  obtain ⟨place, present⟩ := List.mem_filter.mp child
  rw [← Form.map_id_demands] at place
  obtain ⟨demand, asked, rfl⟩ := List.mem_map.mp place
  rcases shaped.admits p inside n held demand asked with ⟨empty, _⟩ | met
  · simp [empty] at present
  · exact ⟨demand, asked, met⟩

/-- Below an annotation there are annotations and expressions only. -/
theorem Shaped.argument_below {a : NodeId} (inside : a ∈ f.ids) {n : Node} (held : t.Holds a n)
    (kind : n.kind ∈ Kind.arguments) {id : NodeId} (lower : t.Below a id) :
    ∃ m, t.Holds id m ∧ m.kind ∈ Kind.arguments := by
  induction lower with
  | refl => exact ⟨n, held, kind⟩
  | @step p id lower child ih =>
      obtain ⟨m, parent, parentKind⟩ := ih
      obtain ⟨m', parent', isChild⟩ := child
      obtain rfl := parent'.unique parent
      obtain ⟨demand, asked, m, here, allowed⟩ := shaped.child_allowed
        (shaped.follows.below_mem inside lower) parent isChild
      exact ⟨m, here, allowed_in_argument parentKind asked allowed⟩

/-- What belongs to a class is either in its body or in its header. -/
theorem Shaped.body_xor_header {c : NodeId} (inside : c ∈ f.ids) {pos : Position} {d : ClassDecl}
    (held : t.Holds c ⟨pos, .classDecl d⟩) {id : NodeId} (owned : t.OwnedBy c id) :
    Xor (InBody t d id) (InHeader t d id) := by
  have either : InBody t d id ∨ InHeader t d id := by
    obtain ⟨x, ⟨n, held', child⟩, lower⟩ := exists_child_above owned
    rw [held'.unique held, shaped.class_children inside held, List.mem_append] at child
    exact child.symm.imp (fun isMember => ⟨x, isMember, lower⟩) fun attached => ⟨x, attached, lower⟩
  have apart : ¬ (InBody t d id ∧ InHeader t d id) := by
    rintro ⟨⟨m, isMember, below⟩, a, attached, below'⟩
    obtain ⟨within, occurs⟩ := Forest.occurs_of_mem inside
    obtain ⟨⟨n, held', children⟩, follows, _⟩ := occurs.follows shaped.follows
    rw [held'.unique held, shaped.class_children inside held] at children
    have nodup := (List.nodup_cons.mp (shaped.nodup.sublist occurs.sublist)).2
    obtain rfl : m = a := Forest.root_unique follows nodup
      (children ▸ List.mem_append_right _ isMember) (children ▸ List.mem_append_left _ attached)
      below below'
    obtain ⟨n₁, first, memberKind⟩ := shaped.member_holds inside held isMember
    obtain ⟨n₂, second, annotKind⟩ := shaped.annotation_holds inside held attached
    rw [second.unique first, List.mem_singleton] at annotKind
    rw [annotKind] at memberKind
    exact absurd memberKind (by decide)
  rw [xor_iff_or_and_not_and]
  exact ⟨either, apart⟩

/-- The nearest scope of a number is below every other scope that the number is below. -/
theorem Shaped.below_governor {a s id : NodeId} (scopeIn : a ∈ f.ids) (isScope : t.IsScope a)
    (governorIn : s ∈ f.ids) (governs : t.Governs s id) (lower : t.Below a id) (other : a ≠ id) :
    t.Below a s := by
  induction governs with
  | direct child =>
      cases lower with
      | refl => exact absurd rfl other
      | @step q _ lower child' =>
          have same : q = s := Forest.parent_unique shaped.follows shaped.nodup
            (shaped.follows.below_mem scopeIn lower) governorIn child' child
          exact same ▸ lower
  | @deeper p _ above plain child ih =>
      cases lower with
      | refl => exact absurd rfl other
      | @step q _ lower child' =>
          have same : q = p := Forest.parent_unique shaped.follows shaped.nodup
            (shaped.follows.below_mem scopeIn lower)
            (shaped.follows.below_mem governorIn above.isBelow) child' child
          subst same
          exact ih lower fun same => plain (same ▸ isScope)

end Shaped

end LiteralHoist.Source

namespace LiteralHoist.Consolidate

open LiteralHoist.Source LiteralHoist.Document

section Class
variable {t : Tree} {f below : Forest} {c : NodeId} {pos : Position} {d : ClassDecl}

/-- If annotations do not count and the header holds no calls, no literal of the header
qualifies: its nearest scope is an annotation of the header. -/
theorem ClassIn.header_not_qualifies (here : ClassIn t f c below pos d)
    (all : ∀ {id : NodeId} {n : Node}, t.Holds id n → id ∈ f.ids) {settings : Settings}
    (uncounted : settings.countAnnotations = false)
    (plain : ∀ id n, InHeader t d id → t.Holds id n → n.kind ≠ .call ∧ n.kind ≠ .new)
    {value : Text} {id : NodeId} (inHeader : InHeader t d id) :
    ¬ Qualifies t settings c value id := by
  rintro ⟨⟨litPos, lit, literal, _⟩, _, s, n, held, scope, governs, counts⟩
  obtain ⟨a, attached, lower⟩ := inHeader
  obtain ⟨n', heldAnnot, kind⟩ := here.shaped.annotation_holds here.mem here.held attached
  rw [List.mem_singleton] at kind
  have isScope : t.IsScope a := ⟨n', heldAnnot, by simp [kind, Tree.scopeKinds]⟩
  have other : a ≠ id := by
    rintro rfl
    rw [heldAnnot.unique literal] at kind
    simp [Node.kind, Form.kind] at kind
  have inner := here.shaped.below_governor (all heldAnnot) isScope (all held) governs lower other
  obtain ⟨m, held', argument⟩ := here.shaped.argument_below (all heldAnnot) heldAnnot
    (by simp [kind, Kind.arguments]) inner
  obtain rfl := held'.unique held
  have noCall := plain s m ⟨a, attached, inner⟩ held
  obtain ⟨_, form⟩ := m
  cases form <;>
    simp [CountsBelow, Node.kind, Form.kind, Kind.arguments, Kind.expressions, uncounted]
      at counts noCall argument

end Class

/-- Every occurrence in a plan is either in the body of the class or in its header.  All are in the
body exactly if no literal of the header qualifies for a value of the plan, in particular if
annotations do not count and the header holds no calls. -/
theorem plan_in_body_unless_header_qualifies {codec : Codec} {bytes : List UInt8} {doc : Document}
    (accepted : Document.read codec bytes = .ok doc) {t : Tree} (member : t ∈ doc.trees)
    {c : NodeId} {pos : Position} {d : ClassDecl} (held : t.Holds c ⟨pos, .classDecl d⟩)
    (resolved : d.fqn ≠ "") (settings : Settings) :
    ∃ p, planClass t settings c = .ok (.ok p) ∧
      (∀ g ∈ p.groups, ∀ id ∈ g.sites, Xor (InBody t d id) (InHeader t d id)) ∧
      ((∀ g ∈ p.groups, ∀ id ∈ g.sites, InBody t d id) ↔
        ∀ g ∈ p.groups, ∀ id, InHeader t d id → ¬ Qualifies t settings c g.value id) ∧
      (settings.countAnnotations = false →
        (∀ id n, InHeader t d id → t.Holds id n → n.kind ≠ .call ∧ n.kind ≠ .new) →
        ∀ g ∈ p.groups, ∀ id ∈ g.sites, InBody t d id) := by
  obtain ⟨f, shaped, all⟩ := exists_shaped_of_held accepted member held
  obtain ⟨below, here⟩ := Shaped.exists_classIn shaped (all held) held
  have fits := fits_classPlan here settings
  have exact_ : ∀ g ∈ (classPlan t settings c below d).groups, ∀ id,
      id ∈ g.sites ↔ Qualifies t settings c g.value id :=
    fun g inPlan id => here.mem_sites_iff all (group_of_classPlan inPlan).1
  have divided : ∀ g ∈ (classPlan t settings c below d).groups, ∀ id ∈ g.sites,
      Xor (InBody t d id) (InHeader t d id) :=
    fun g inPlan id site => shaped.body_xor_header here.mem held (fits.owned g inPlan id site)
  have inBody_iff : (∀ g ∈ (classPlan t settings c below d).groups, ∀ id ∈ g.sites,
      InBody t d id) ↔ ∀ g ∈ (classPlan t settings c below d).groups, ∀ id, InHeader t d id →
        ¬ Qualifies t settings c g.value id := by
    constructor
    · intro body g inPlan id header qualifies
      have site := (exact_ g inPlan id).mpr qualifies
      exact (xor_iff_iff_not.mp (divided g inPlan id site)).mp (body g inPlan id site) header
    · intro clean g inPlan id site
      refine (xor_iff_iff_not.mp (divided g inPlan id site)).mpr fun header => ?_
      exact clean g inPlan id header ((exact_ g inPlan id).mp site)
  refine ⟨_, planClass_eq here settings resolved, divided, inBody_iff, ?_⟩
  intro uncounted plain
  rw [inBody_iff]
  intro g _ id header
  exact here.header_not_qualifies all uncounted plain header

theorem mixedUseUnit_plan_in_body :
    ∃ p, planClass mixedUseUnit { countAnnotations := false } 20 = .ok (.ok p) ∧
      p.groups.map Group.sites = [[3, 7]] ∧
      ∀ g ∈ p.groups, ∀ id ∈ g.sites, InBody mixedUseUnit
        { annotations := [2], name := "A", fqn := "A", members := [6, 12, 15, 19] } id := by
  have accepted := read_writtenUnit (t := mixedUseUnit) (by decide +kernel)
  obtain ⟨p, plan, _, _, body⟩ := plan_in_body_unless_header_qualifies accepted
    (List.mem_singleton.mpr rfl) (show mixedUseUnit.Holds 20 ⟨{}, .classDecl
      { annotations := [2], name := "A", fqn := "A", members := [6, 12, 15, 19] }⟩ from rfl)
    (by decide) { countAnnotations := false }
  have planned : (planClass mixedUseUnit { countAnnotations := false } 20).toOption.map
      (fun result => result.toOption.map fun p => p.groups.map Group.sites) =
      some (some [[3, 7]]) := by decide +kernel
  rw [plan] at planned
  simp only [Except.toOption, Option.map_some, Option.some_inj] at planned
  refine ⟨p, plan, planned, body rfl fun id n header held => ?_⟩
  obtain ⟨a, attached, lower⟩ := header
  obtain rfl : a = 2 := by simpa using attached
  have inside := mem_of_below [2, 1] (by decide) (by decide) lower
  simp only [List.mem_cons, List.not_mem_nil, or_false] at inside
  rcases inside with rfl | rfl
  · rw [held.unique (show mixedUseUnit.Holds 2 ⟨{}, .annot "Named" [1]⟩ from rfl)]
    decide
  · rw [held.unique (show mixedUseUnit.Holds 1
      ⟨{}, .literal { value := "on", type := "String" }⟩ from rfl)]
    decide

/-- A class with a constant `ON` for the value `"off"`, and a nested class without members that has
the literal `"on"` in two annotations. -/
def labelledUnit : Tree where
  root := 10
  nodes := #[
    some { form := .literal { value := "off", type := "String" } },
    some { form := .namedVar "ON" 1 },
    some { form := .varDecl { mods := .constant, type := "String", vars := [2] } },
    some { form := .literal { value := "on", type := "String" } },
    some { form := .annot "Named" [4] },
    some { form := .literal { value := "on", type := "String" } },
    some { form := .annot "Label" [6] },
    some { form := .classDecl { annotations := [5, 7], name := "B", fqn := "A.B" } },
    some { form := .classDecl { name := "A", fqn := "A", members := [3, 8] } },
    some { form := .unit { name := "A.java", classes := [9] } }]

/-- The annotations of the nested class are made to refer to its new constant by the simple name
`ON`.  In the header of the nested class that is the constant of the enclosing class. -/
theorem labelledUnit_reference_outside_body :
    Document.read .messagePack (writtenUnit labelledUnit) =
        .ok ⟨Version.current, [labelledUnit]⟩ ∧
      labelledUnit.Holds 8
        ⟨{}, .classDecl { annotations := [5, 7], name := "B", fqn := "A.B" }⟩ ∧
      ∃ p, planClass labelledUnit {} 8 = .ok (.ok p) ∧
        p.groups = [{ value := "on", sites := [4, 6], action := .insert, name := "ON" }] ∧
        ¬ InBody labelledUnit { annotations := [5, 7], name := "B", fqn := "A.B" } 4 := by
  refine ⟨read_writtenUnit (by decide +kernel), rfl, ?_⟩
  have planned : (planClass labelledUnit {} 8).toOption =
      some (.ok { classId := 8, fqn := "A.B", groups :=
        [{ value := "on", sites := [4, 6], action := .insert, name := "ON" }] }) := by
    decide +kernel
  exact ⟨_, eq_ok_of_toOption planned, rfl, by simp [InBody]⟩

end LiteralHoist.Consolidate
