import LiteralHoist.Proofs.Consolidate.Idempotence
import LiteralHoist.Proofs.Consolidate.Safety

/-!
# Unresolved classes

A run on a unit reports the classes whose type was not resolved, and nothing else.  No step makes or
removes such a class, so whether a run reports anything is decided by the unit that it starts from.
-/

set_option autoImplicit false

namespace LiteralHoist.Report

theorem Diagnostics.isEmpty_insert (ds : Diagnostics) (d : Diagnostic) :
    (ds.insert d).isEmpty = false := by
  rw [Diagnostics.insert]
  split
  · rename_i found
    obtain ⟨e, member, _⟩ := List.any_eq_true.mp found
    simpa [Diagnostics.isEmpty] using List.ne_nil_of_mem member
  · simp [Diagnostics.isEmpty]

/-- A list is empty after a report exactly if it was before and the report holds nothing. -/
theorem Diagnostics.isEmpty_reportIn (ds : Diagnostics) (file : Text) (r : Reported) :
    (ds.reportIn file r).isEmpty = (ds.isEmpty && (r.diagnostics file).isEmpty) := by
  have fold : ∀ (more : List Diagnostic) (ds : Diagnostics),
      (more.foldl Diagnostics.insert ds).isEmpty = (ds.isEmpty && more.isEmpty) := by
    intro more
    induction more with
    | nil => simp
    | cons d rest ih =>
        intro ds
        rw [List.foldl_cons, ih, isEmpty_insert]
        simp
  exact fold _ ds

end LiteralHoist.Report

namespace LiteralHoist.Consolidate

open LiteralHoist.Source LiteralHoist.Report

def UnresolvedAt (t : Tree) (c : NodeId) : Prop :=
  ∃ pos d, t.Holds c ⟨pos, .classDecl d⟩ ∧ d.fqn = ""

theorem ClassStep.unresolvedAt_iff {settings : Settings} {t t' : Tree} {f below : Forest}
    {c : NodeId} {pos : Position} {d : ClassDecl} (step : ClassStep settings t t' f c below pos d)
    (compact : t.Compact) (x : NodeId) : UnresolvedAt t' x ↔ UnresolvedAt t x := by
  constructor
  · rintro ⟨xPos, dx', held', unresolved⟩
    obtain ⟨dx, _, held, name⟩ :=
      step.class_before ((step.compact compact).below_root held') held'
    exact ⟨xPos, dx, held, name ▸ unresolved⟩
  · rintro ⟨xPos, dx, held, unresolved⟩
    exact ⟨xPos, dx, step.unresolved held unresolved, unresolved⟩

/-- A run on one more class keeps the classes and those unresolved, and reports the class exactly
if it is unresolved. -/
theorem UnitRun.runClass_reports {settings : Settings} {file : Text} {r r₁ : UnitRun} {c : NodeId}
    (compact : r.tree.Compact) (isClass : r.tree.IsClass c)
    (ran : UnitRun.runClass settings file r c = .ok r₁) :
    r₁.tree.Compact ∧ (∀ x, r.tree.IsClass x → r₁.tree.IsClass x) ∧
      (∀ x, UnresolvedAt r₁.tree x ↔ UnresolvedAt r.tree x) ∧
      (r₁.errors.isEmpty = true ↔ r.errors.isEmpty = true ∧ ¬ UnresolvedAt r.tree c) := by
  obtain ⟨pos, d, held⟩ := isClass
  rw [UnitRun.runClass] at ran
  by_cases unresolved : d.fqn = ""
  · rw [runClass_unresolved held unresolved, ok_bind] at ran
    obtain rfl := Except.ok.inj ran
    have here : UnresolvedAt r.tree c := ⟨pos, d, held, unresolved⟩
    refine ⟨compact, fun _ there => there, fun _ => Iff.rfl, ?_⟩
    simp [Diagnostics.isEmpty_reportIn, Reported.diagnostics, here]
  · obtain ⟨f, below, here⟩ := exists_classIn_of_compact compact held
    obtain ⟨cr, classRun, _, step⟩ := runClass_edited settings here unresolved
    rw [classRun, ok_bind] at ran
    obtain rfl := Except.ok.inj ran
    refine ⟨step.compact compact, ?_, step.unresolvedAt_iff compact, ?_⟩
    · rintro x ⟨xPos, dx, there⟩
      exact (step.isClass_iff there).mpr ⟨xPos, dx, there⟩
    · have resolved : ¬ UnresolvedAt r.tree c := by
        rintro ⟨pos', d', held', missing⟩
        obtain ⟨_, rfl⟩ := held'.class_unique held
        exact unresolved missing
      simp [resolved]

theorem runClasses_reports {settings : Settings} {file : Text} (classes : List NodeId) :
    ∀ {r r' : UnitRun}, r.tree.Compact → (∀ c ∈ classes, r.tree.IsClass c) →
      classes.foldlM (UnitRun.runClass settings file) r = .ok r' →
      (r'.errors.isEmpty = true ↔
        r.errors.isEmpty = true ∧ ∀ c ∈ classes, ¬ UnresolvedAt r.tree c) := by
  induction classes with
  | nil =>
      rintro r r' _ _ ran
      obtain rfl := Except.ok.inj ran
      simp
  | cons c rest ih =>
      intro r r' compact areClasses ran
      rw [List.foldlM_cons] at ran
      obtain ⟨r₁, first, later⟩ := bind_eq_ok ran
      obtain ⟨compact₁, kept, same, reported⟩ :=
        UnitRun.runClass_reports compact (areClasses c (by simp)) first
      have result := ih compact₁
        (fun x member => kept x (areClasses x (List.mem_cons_of_mem _ member))) later
      simp only [same] at result
      rw [result, reported, List.forall_mem_cons, and_assoc]

theorem mem_classes_iff {t : Tree} (compact : t.Compact) {all : List NodeId}
    (listed : t.classes t.root = .ok all) {c : NodeId} : c ∈ all ↔ t.IsClass c := by
  obtain ⟨f, shaped⟩ := compact.conforms
  rw [classes_eq shaped] at listed
  rw [← Except.ok.inj listed, List.mem_filter, isClassEntry_iff]
  constructor
  · exact And.right
  · rintro ⟨pos, d, held⟩
    exact ⟨shaped.below_root.mp (compact.below_root held), pos, d, held⟩

/-- A run on a unit reports something exactly if the unit mentions the string type and has a class
whose type was not resolved. -/
theorem runUnit_reports {settings : Settings} {t : Tree} (compact : t.Compact) {r : UnitRun}
    (ran : runUnit settings t = .ok r) :
    r.errors.isEmpty = true ↔
      ¬ (t.usesType isStringType t.root = .ok true ∧ ∃ c, UnresolvedAt t c) := by
  rw [runUnit] at ran
  obtain ⟨uses, gate, ran⟩ := bind_eq_ok ran
  cases uses with
  | false =>
      obtain rfl := Except.ok.inj ran
      simp [gate, Diagnostics.isEmpty]
  | true =>
      obtain ⟨file, _, ran⟩ := bind_eq_ok ran
      obtain ⟨classes, listed, ran⟩ := bind_eq_ok ran
      have listed_iff := fun c => mem_classes_iff compact listed (c := c)
      rw [runClasses_reports classes (r := { tree := t }) compact
        (fun c member => (listed_iff c).mp member) ran]
      simp only [Diagnostics.isEmpty, List.isEmpty_nil, true_and, gate, not_exists]
      constructor
      · rintro none c ⟨pos, d, held, unresolved⟩
        exact none c ((listed_iff c).mpr ⟨pos, d, held⟩) ⟨pos, d, held, unresolved⟩
      · exact fun none c _ => none c

end LiteralHoist.Consolidate
