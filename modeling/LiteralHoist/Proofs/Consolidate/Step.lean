import LiteralHoist.Proofs.Consolidate.Reference

/-!
# What a step of a run keeps

A step of a run carries out the plan of one class.  The nodes that were in the unit stay where they
are: below the same nodes and in the same classes.  No class comes or goes, and classes keep their
names.
-/

set_option autoImplicit false

namespace LiteralHoist.Consolidate

open LiteralHoist.Source

structure ClassStep (settings : Settings) (t t' : Tree) (f : Forest) (c : NodeId) (below : Forest)
    (pos : Position) (d : ClassDecl) : Prop where
  here : ClassIn t f c below pos d
  resolved : d.fqn ≠ ""
  edited : Edited t t' c below pos d (classPlan t settings c below d).groups

/-- No two classes of the unit have the same full name, unless their types were not resolved. -/
def DistinctNames (t : Tree) : Prop :=
  ∀ {x y : NodeId} {xPos yPos : Position} {dx dy : ClassDecl},
    t.Below t.root x → t.Below t.root y → t.Holds x ⟨xPos, .classDecl dx⟩ →
    t.Holds y ⟨yPos, .classDecl dy⟩ → dx.fqn ≠ "" → dx.fqn = dy.fqn → x = y

section Step
variable {settings : Settings} {t t' : Tree} {f below : Forest} {c : NodeId} {pos : Position}
  {d : ClassDecl}

theorem ClassStep.fits (step : ClassStep settings t t' f c below pos d) :
    Fits t c below d (classPlan t settings c below d).groups :=
  fits_classPlan step.here settings

theorem ClassStep.shaped (step : ClassStep settings t t' f c below pos d) :
    Shaped t' (editedForest t f c d (classPlan t settings c below d).groups) :=
  step.edited.shaped step.here step.fits

theorem ClassStep.conforms (step : ClassStep settings t t' f c below pos d) : t'.Conforms :=
  ⟨_, step.shaped⟩

theorem ClassStep.mem_of_mem (step : ClassStep settings t t' f c below pos d) {id : NodeId}
    (member : id ∈ f.ids) :
    id ∈ (editedForest t f c d (classPlan t settings c below d).groups).ids :=
  (perm_ids_editedForest step.here _).symm.subset (List.mem_append_right _ member)

theorem ClassStep.child (step : ClassStep settings t t' f c below pos d) {p id : NodeId}
    (child : t.Child p id) : t'.Child p id := by
  obtain ⟨n, held, member⟩ := child
  by_cases same : p = c
  · subst same
    refine ⟨_, step.edited.class_, ?_⟩
    rw [held.unique step.here.held,
      step.here.shaped.class_children step.here.mem step.here.held] at member
    rw [children_extended step.here, List.mem_append, List.mem_append]
    rcases List.mem_append.mp member with attached | isMember
    · exact .inl attached
    · exact .inr (.inr isMember)
  · obtain ⟨n', held', children⟩ := step.edited.same_children step.here step.fits held same
    exact ⟨n', held', children ▸ member⟩

/-- What was in the unit has no new parent. -/
theorem ClassStep.child_iff (step : ClassStep settings t t' f c below pos d) {p id : NodeId}
    (inside : id ∈ f.ids)
    (parent : p ∈ (editedForest t f c d (classPlan t settings c below d).groups).ids) :
    t'.Child p id ↔ t.Child p id ∧ p ∈ f.ids := by
  constructor
  · intro child
    obtain ⟨up, visited⟩ := Forest.exists_visit [] inside
    rcases Forest.visit_parent step.here.shaped.follows visited with
      ⟨isRoot, _⟩ | ⟨q, up', _, visitedParent, child'⟩
    · have root' : id ∈ (editedForest t f c d (classPlan t settings c below d).groups).roots := by
        rwa [editedForest, Forest.roots_graft]
      exact absurd child
        (Forest.root_not_child step.shaped.follows step.shaped.nodup parent root')
    · have qIn := Forest.fst_mem_of_visits visitedParent
      obtain rfl := Forest.parent_unique step.shaped.follows step.shaped.nodup parent
        (step.mem_of_mem qIn) child (step.child child')
      exact ⟨child', qIn⟩
  · rintro ⟨child, _⟩
    exact step.child child

theorem ClassStep.stays_below (step : ClassStep settings t t' f c below pos d) {top id : NodeId}
    (lower : t.Below top id) : t'.Below top id := by
  induction lower with
  | refl => exact .refl
  | step _ child ih => exact .step ih (step.child child)

theorem ClassStep.below_iff (step : ClassStep settings t t' f c below pos d) {top id : NodeId}
    (topIn : top ∈ f.ids) (inside : id ∈ f.ids) : t'.Below top id ↔ t.Below top id := by
  constructor
  · intro lower
    induction lower with
    | refl => exact .refl
    | @step p id lower child ih =>
        have parent := step.shaped.follows.below_mem (step.mem_of_mem topIn) lower
        obtain ⟨child', pIn⟩ := (step.child_iff inside parent).mp child
        exact .step (ih pIn) child'
  · exact step.stays_below

theorem ClassStep.isClass_iff (step : ClassStep settings t t' f c below pos d) {id : NodeId}
    {n : Node} (held : t.Holds id n) : t'.IsClass id ↔ t.IsClass id :=
  step.edited.isClass_iff step.here step.fits held

theorem ClassStep.owned (step : ClassStep settings t t' f c below pos d) {x id : NodeId}
    (owned : t.OwnedBy x id) : t'.OwnedBy x id := by
  induction owned with
  | direct child => exact .direct (step.child child)
  | deeper _ outside child ih =>
      obtain ⟨n, held, _⟩ := child
      have outside' := (step.isClass_iff held).not.mpr outside
      exact .deeper ih outside' (step.child ⟨n, held, ‹_›⟩)

theorem ClassStep.not_isClass_new (step : ClassStep settings t t' f c below pos d) {id : NodeId}
    (fresh : id ∈ (newDeclarations t (classPlan t settings c below d).groups).ids) :
    ¬ t'.IsClass id := by
  rintro ⟨pos', decl, held⟩
  simpa [Node.kind, Form.kind] using step.edited.kind_new fresh held

/-- A class after the step was a class before, with the same name; only the class of the step has
other members. -/
theorem ClassStep.class_of_class (step : ClassStep settings t t' f c below pos d) {x : NodeId}
    {xPos : Position} {dx' : ClassDecl}
    (inside : x ∈ (editedForest t f c d (classPlan t settings c below d).groups).ids)
    (held' : t'.Holds x ⟨xPos, .classDecl dx'⟩) :
    x ∈ f.ids ∧ ((x = c ∧ xPos = pos ∧
        dx' = extended t d (classPlan t settings c below d).groups) ∨
      (x ≠ c ∧ t.Holds x ⟨xPos, .classDecl dx'⟩)) := by
  rcases List.mem_append.mp ((perm_ids_editedForest step.here _).subset inside) with fresh | old
  · exact absurd ⟨xPos, dx', held'⟩ (step.not_isClass_new fresh)
  · refine ⟨old, ?_⟩
    by_cases same : x = c
    · subst same
      exact .inl ⟨rfl, held'.class_unique step.edited.class_⟩
    · obtain ⟨n, held⟩ := step.here.shaped.follows.holds old
      obtain ⟨xPos', dx, there⟩ := (step.isClass_iff held).mp ⟨xPos, dx', held'⟩
      have after := step.edited.class_other step.here step.fits there same
      rw [after.unique held'] at there
      exact .inr ⟨same, there⟩

theorem ClassStep.classes_eq (step : ClassStep settings t t' f c below pos d) :
    t'.classes t'.root = t.classes t.root := by
  rw [Consolidate.classes_eq step.shaped, Consolidate.classes_eq step.here.shaped]
  congr 1
  rw [editedForest, Forest.filter_ids_graft fun id fresh => ?_]
  · refine List.filter_congr fun id member => ?_
    obtain ⟨n, held⟩ := step.here.shaped.follows.holds member
    rw [Bool.eq_iff_iff, isClassEntry_iff, isClassEntry_iff]
    exact step.isClass_iff held
  · have notClass := step.not_isClass_new fresh
    rw [← isClassEntry_iff] at notClass
    simpa using notClass

theorem ClassStep.class_before (step : ClassStep settings t t' f c below pos d) {x : NodeId}
    {xPos : Position} {dx' : ClassDecl} (inUnit : t'.Below t'.root x)
    (held' : t'.Holds x ⟨xPos, .classDecl dx'⟩) :
    ∃ dx, t.Below t.root x ∧ t.Holds x ⟨xPos, .classDecl dx⟩ ∧ dx'.fqn = dx.fqn := by
  obtain ⟨member, ⟨rfl, rfl, rfl⟩ | ⟨_, held⟩⟩ :=
    step.class_of_class (step.shaped.below_root.mp inUnit) held'
  · exact ⟨d, step.here.shaped.below_root.mpr member, step.here.held, rfl⟩
  · exact ⟨dx', step.here.shaped.below_root.mpr member, held, rfl⟩

theorem ClassStep.distinctNames (step : ClassStep settings t t' f c below pos d)
    (distinct : DistinctNames t) : DistinctNames t' := by
  intro x y xPos yPos dx dy xIn yIn xHeld yHeld resolved same
  obtain ⟨dx₀, xIn₀, xHeld₀, xName⟩ := step.class_before xIn xHeld
  obtain ⟨dy₀, yIn₀, yHeld₀, yName⟩ := step.class_before yIn yHeld
  exact distinct xIn₀ yIn₀ xHeld₀ yHeld₀ (xName ▸ resolved) (by rw [← xName, ← yName, same])

theorem ClassStep.below_root (step : ClassStep settings t t' f c below pos d) {id : NodeId}
    (inUnit : t.Below t.root id) : t'.Below t'.root id := by
  rw [step.edited.root_eq]
  exact step.stays_below inUnit

end Step

def fullNameAt (t : Tree) (id : NodeId) : Option Text :=
  match t.peek id with
  | some ⟨_, .classDecl d⟩ => some d.fqn
  | _ => none

theorem distinctNames_of_check {t : Tree}
    (check : ∀ x ∈ List.range (t.size + 1), ∀ y ∈ List.range (t.size + 1),
      fullNameAt t x ≠ none → fullNameAt t x ≠ some "" → fullNameAt t x = fullNameAt t y →
      x = y) : DistinctNames t := by
  intro x y xPos yPos dx dy _ _ xHeld yHeld resolved same
  have nameX : fullNameAt t x = some dx.fqn := by simp [fullNameAt, xHeld.peek_eq]
  have nameY : fullNameAt t y = some dy.fqn := by simp [fullNameAt, yHeld.peek_eq]
  refine check x (List.mem_range.mpr (Nat.lt_succ_of_le xHeld.le_size)) y
    (List.mem_range.mpr (Nat.lt_succ_of_le yHeld.le_size)) ?_ ?_ ?_
  · simp [nameX]
  · simpa [nameX] using resolved
  · rw [nameX, nameY, same]

end LiteralHoist.Consolidate
