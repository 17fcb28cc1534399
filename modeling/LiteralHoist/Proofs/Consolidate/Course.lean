import LiteralHoist.Proofs.Consolidate.Step

/-!
# The course of a run

A run on a unit takes the classes one after the other: it carries out the plan of a class, or
passes over the class if its type was not resolved.  On a conforming tree no run fails: what it
gathers is recorded class by class, and the tree that it leaves is reached by a course of steps.
What every step preserves, every run preserves.
-/

set_option autoImplicit false

namespace LiteralHoist.Consolidate

open LiteralHoist.Source

/-- A run takes the classes of a list, makes plans and leaves a tree. -/
inductive Course (settings : Settings) : Tree → List NodeId → List Plan → Tree → Prop where
  | done (t : Tree) : Course settings t [] [] t
  | pass {t t' : Tree} {c : NodeId} {pos : Position} {d : ClassDecl} {rest : List NodeId}
      {plans : List Plan} (held : t.Holds c ⟨pos, .classDecl d⟩) (unresolved : d.fqn = "")
      (later : Course settings t rest plans t') : Course settings t (c :: rest) plans t'
  | edit {t u t' : Tree} {f below : Forest} {c : NodeId} {pos : Position} {d : ClassDecl}
      {rest : List NodeId} {plans : List Plan}
      (step : ClassStep settings t u f c below pos d)
      (later : Course settings u rest plans t') :
      Course settings t (c :: rest) (classPlan t settings c below d :: plans) t'

/-- What every step preserves, a course preserves. -/
theorem Course.preserves {settings : Settings} (invariant : Tree → Prop)
    (step : ∀ {t t' : Tree} {f below : Forest} {c : NodeId} {pos : Position} {d : ClassDecl},
      ClassStep settings t t' f c below pos d → invariant t → invariant t')
    {t t' : Tree} {classes : List NodeId} {plans : List Plan}
    (course : Course settings t classes plans t') (start : invariant t) : invariant t' := by
  induction course with
  | done => exact start
  | pass _ _ _ ih => exact ih start
  | edit here _ ih => exact ih (step here start)

section Class
variable {settings : Settings} {t : Tree} {f below : Forest} {c : NodeId} {pos : Position}
  {d : ClassDecl}

theorem runClass_unresolved (held : t.Holds c ⟨pos, .classDecl d⟩) (unresolved : d.fqn = "") :
    runClass settings t c = .ok (.error ⟨pos, d.name⟩) := by
  rw [runClass, planClass_unresolved held settings unresolved, ok_bind]
  rfl

theorem runClass_edited (settings : Settings) (here : ClassIn t f c below pos d)
    (resolved : d.fqn ≠ "") :
    ∃ r, runClass settings t c = .ok (.ok r) ∧ r.plan = classPlan t settings c below d ∧
      ClassStep settings t r.tree f c below pos d := by
  obtain ⟨t', stats, applied, edited⟩ := applyPlan_edited here (fits_classPlan here settings)
    (p := classPlan t settings c below d) rfl rfl rfl
  refine ⟨⟨t', classPlan t settings c below d, stats,
    Report.eventsOf (classPlan t settings c below d)⟩, ?_, rfl, here, resolved, edited⟩
  rw [runClass, planClass_eq here settings resolved, ok_bind]
  simp only [applied, ok_bind]
  rfl

theorem runClass_of_no_groups {p : Plan} (planned : planClass t settings c = .ok (.ok p))
    (noGroups : p.groups = []) :
    runClass settings t c = .ok (.ok ⟨t, p, {}, Report.eventsOf p⟩) := by
  rw [runClass, planned, ok_bind]
  simp only [applyPlan_of_nil noGroups, ok_bind]
  rfl

theorem UnitRun.runClass_pass (settings : Settings) (file : Text) {r : UnitRun}
    (held : r.tree.Holds c ⟨pos, .classDecl d⟩) (unresolved : d.fqn = "") :
    ∃ r₁, UnitRun.runClass settings file r c = .ok r₁ ∧ r₁.tree = r.tree ∧
      r₁.plans = r.plans ∧ r₁.stats = r.stats := by
  rw [UnitRun.runClass, runClass_unresolved held unresolved, ok_bind]
  exact ⟨_, rfl, rfl, rfl, rfl⟩

theorem UnitRun.runClass_ran (file : Text) {r : UnitRun} {cr : ClassRun}
    (ran : Consolidate.runClass settings r.tree c = .ok (.ok cr)) :
    ∃ r₁, UnitRun.runClass settings file r c = .ok r₁ ∧ r₁.tree = cr.tree ∧
      r₁.plans = r.plans ++ [cr.plan] ∧ r₁.stats = r.stats.add cr.stats := by
  rw [UnitRun.runClass, ran, ok_bind]
  exact ⟨_, rfl, rfl, rfl, rfl⟩

end Class

/-- A run takes one more class of the file: it passes over the class, or carries out its plan. -/
inductive Gathers (settings : Settings) (file : Text) (r : UnitRun) (c : NodeId) :
    UnitRun → Prop where
  | pass {pos : Position} {d : ClassDecl} (held : r.tree.Holds c ⟨pos, .classDecl d⟩)
      (unresolved : d.fqn = "") :
      Gathers settings file r c { r with
        log := r.log ++ [.skippedClass ⟨pos, d.name⟩]
        errors := r.errors.reportIn file (.unresolved ⟨pos, d.name⟩) }
  | edit {cr : ClassRun} {f below : Forest} {pos : Position} {d : ClassDecl}
      (ran : Consolidate.runClass settings r.tree c = .ok (.ok cr))
      (plan : cr.plan = classPlan r.tree settings c below d)
      (step : ClassStep settings r.tree cr.tree f c below pos d) :
      Gathers settings file r c { r with
        tree := cr.tree
        plans := r.plans ++ [cr.plan]
        stats := r.stats.add cr.stats
        log := r.log ++ cr.log }

inductive Records (settings : Settings) (file : Text) :
    UnitRun → List NodeId → UnitRun → Prop where
  | done (r : UnitRun) : Records settings file r [] r
  | next {r r₁ r' : UnitRun} {c : NodeId} {rest : List NodeId}
      (first : Gathers settings file r c r₁) (later : Records settings file r₁ rest r') :
      Records settings file r (c :: rest) r'

/-- A run on one more class of the unit succeeds, and lists the same classes afterwards. -/
theorem exists_gathers (settings : Settings) (file : Text) {r : UnitRun}
    (conforms : r.tree.Conforms) {all : List NodeId}
    (listed : r.tree.classes r.tree.root = .ok all) {c : NodeId} (isListed : c ∈ all) :
    ∃ r₁, UnitRun.runClass settings file r c = .ok r₁ ∧ Gathers settings file r c r₁ ∧
      r₁.tree.Conforms ∧ r₁.tree.classes r₁.tree.root = .ok all := by
  obtain ⟨f, shaped⟩ := conforms
  have isEntry : c ∈ f.ids.filter fun id => isClassEntry (r.tree.peek id) := by
    rw [classes_eq shaped] at listed
    rwa [Except.ok.inj listed]
  obtain ⟨member, isClass⟩ := List.mem_filter.mp isEntry
  obtain ⟨pos, d, held⟩ := isClassEntry_iff.mp isClass
  by_cases unresolved : d.fqn = ""
  · refine ⟨_, ?_, .pass held unresolved, ⟨f, shaped⟩, listed⟩
    rw [UnitRun.runClass, runClass_unresolved held unresolved, ok_bind]
    rfl
  · obtain ⟨below, here⟩ := Shaped.exists_classIn shaped member held
    obtain ⟨cr, ran, plan, step⟩ := runClass_edited settings here unresolved
    refine ⟨_, ?_, .edit ran plan step, step.conforms, step.classes_eq.trans listed⟩
    rw [UnitRun.runClass, ran, ok_bind]
    rfl

theorem runClasses_records (settings : Settings) (file : Text) {all : List NodeId}
    (classes : List NodeId) : ∀ {r : UnitRun}, r.tree.Conforms →
      r.tree.classes r.tree.root = .ok all → classes ⊆ all →
      ∃ r', classes.foldlM (UnitRun.runClass settings file) r = .ok r' ∧
        Records settings file r classes r' := by
  induction classes with
  | nil => exact fun {r} _ _ _ => ⟨r, rfl, .done r⟩
  | cons c rest ih =>
      intro r conforms listed subset
      obtain ⟨r₁, first, gathers, conforms₁, listed₁⟩ :=
        exists_gathers settings file conforms listed (subset List.mem_cons_self)
      obtain ⟨r', run, later⟩ := ih conforms₁ listed₁ fun x inRest => subset (by simp [inRest])
      refine ⟨r', ?_, .next gathers later⟩
      rw [List.foldlM_cons, first, ok_bind, run]

/-- What is gathered follows a course. -/
theorem Records.course {settings : Settings} {file : Text} {r r' : UnitRun}
    {classes : List NodeId} (records : Records settings file r classes r') :
    ∃ plans, r'.plans = r.plans ++ plans ∧ Course settings r.tree classes plans r'.tree := by
  induction records with
  | done r => exact ⟨[], by simp, .done r.tree⟩
  | next first _ ih =>
      obtain ⟨plans, plans_eq, course⟩ := ih
      cases first with
      | pass held unresolved => exact ⟨plans, plans_eq, .pass held unresolved course⟩
      | edit ran plan step =>
          refine ⟨_, ?_, .edit step course⟩
          rw [plans_eq, plan, List.append_assoc, List.singleton_append]

/-- What holds of the classes that were taken, one more class at a time, holds of all that a run
takes. -/
theorem Records.preserves {settings : Settings} {file : Text}
    (invariant : List NodeId → UnitRun → Prop)
    (step : ∀ {seen : List NodeId} {r r₁ : UnitRun} {c : NodeId},
      Gathers settings file r c r₁ → invariant seen r → invariant (seen ++ [c]) r₁)
    {r r' : UnitRun} {classes : List NodeId} (records : Records settings file r classes r') :
    ∀ {seen : List NodeId}, invariant seen r → invariant (seen ++ classes) r' := by
  induction records with
  | done => simp
  | @next r r₁ r' c rest first _ ih =>
      intro seen start
      have result := ih (step first start)
      rwa [List.append_assoc, List.singleton_append] at result

theorem unitName_eq {t : Tree} (conforms : t.Conforms) : ∃ file, unitName t = .ok file := by
  obtain ⟨f, shaped⟩ := conforms
  obtain ⟨⟨pos, form⟩, held⟩ := shaped.root_holds
  cases form with
  | unit decl =>
      exact ⟨decl.name, by simp [unitName, Tree.unit?, held.node?_eq, ok_bind, pure_eq_ok]⟩
  | _ => exact ⟨"", by simp [unitName, Tree.unit?, held.node?_eq, ok_bind, pure_eq_ok]⟩

/-- A run on a conforming tree succeeds: it leaves the tree alone if nothing mentions the string
type, and else takes the classes of the unit. -/
theorem runUnit_records (settings : Settings) {t : Tree} (conforms : t.Conforms) :
    ∃ r, runUnit settings t = .ok r ∧
      ((t.usesType isStringType t.root = .ok false ∧ r = { tree := t }) ∨
        ∃ file all, t.usesType isStringType t.root = .ok true ∧ unitName t = .ok file ∧
          t.classes t.root = .ok all ∧ Records settings file { tree := t } all r) := by
  obtain ⟨f, shaped⟩ := conforms
  have gate := usesType_eq shaped isStringType
  cases uses : f.ids.any fun id => mentions isStringType (t.peek id) with
  | false =>
      rw [uses] at gate
      refine ⟨{ tree := t }, ?_, .inl ⟨gate, rfl⟩⟩
      rw [runUnit, gate, ok_bind]
      rfl
  | true =>
      rw [uses] at gate
      obtain ⟨file, named⟩ := unitName_eq ⟨f, shaped⟩
      have listed := classes_eq shaped
      obtain ⟨r, run, records⟩ := runClasses_records settings file
        (f.ids.filter fun id => isClassEntry (t.peek id)) (r := { tree := t }) ⟨f, shaped⟩ listed
        fun _ member => member
      refine ⟨r, ?_, .inr ⟨file, _, gate, named, listed, records⟩⟩
      rw [runUnit, gate, ok_bind]
      simp only [if_true, named, ok_bind, listed]
      exact run

/-- A run that does not leave the tree alone follows a course over the classes of the unit. -/
theorem runUnit_course (settings : Settings) {t : Tree} (conforms : t.Conforms) :
    ∃ r, runUnit settings t = .ok r ∧
      ((t.usesType isStringType t.root = .ok false ∧ r = { tree := t }) ∨
        ∃ all, t.usesType isStringType t.root = .ok true ∧ t.classes t.root = .ok all ∧
          Course settings t all r.plans r.tree) := by
  obtain ⟨r, run, alone | ⟨_, all, gate, _, listed, records⟩⟩ := runUnit_records settings conforms
  · exact ⟨r, run, .inl alone⟩
  · obtain ⟨plans, plans_eq, course⟩ := records.course
    rw [List.nil_append] at plans_eq
    exact ⟨r, run, .inr ⟨all, gate, listed, plans_eq ▸ course⟩⟩

theorem runUnit_of_no_root (settings : Settings) {t : Tree} (absent : t.root = 0) :
    runUnit settings t = .ok { tree := t } := by
  simp [runUnit, Tree.usesType, absent, Forest.walk_zero, ok_bind, pure_eq_ok]

theorem runUnit_preserves (settings : Settings) (invariant : Tree → Prop)
    (step : ∀ {t t' : Tree} {f below : Forest} {c : NodeId} {pos : Position} {d : ClassDecl},
      ClassStep settings t t' f c below pos d → invariant t → invariant t')
    {t : Tree} (conforms : t.Conforms) (start : invariant t) :
    ∃ r, runUnit settings t = .ok r ∧ r.tree.Conforms ∧ invariant r.tree := by
  obtain ⟨r, run, ⟨_, rfl⟩ | ⟨_, _, _, course⟩⟩ := runUnit_course settings conforms
  · exact ⟨_, run, conforms, start⟩
  · exact ⟨r, run, course.preserves Tree.Conforms (fun here _ => here.conforms) conforms,
      course.preserves invariant step start⟩

def runSequence (passes : List Settings) (t : Tree) : Except Fault Tree :=
  passes.foldlM (fun t settings => UnitRun.tree <$> runUnit settings t) t

theorem runSequence_preserves (invariant : Tree → Prop)
    (step : ∀ {settings : Settings} {t t' : Tree} {f below : Forest} {c : NodeId}
      {pos : Position} {d : ClassDecl},
      ClassStep settings t t' f c below pos d → invariant t → invariant t')
    (passes : List Settings) : ∀ {t : Tree}, t.Conforms → invariant t →
    ∃ t', runSequence passes t = .ok t' ∧ t'.Conforms ∧ invariant t' := by
  induction passes with
  | nil => intro t conforms start; exact ⟨t, rfl, conforms, start⟩
  | cons settings rest ih =>
      intro t conforms start
      obtain ⟨r, run, conforms', kept⟩ := runUnit_preserves settings invariant step conforms start
      obtain ⟨t', runRest, result⟩ := ih conforms' kept
      refine ⟨t', ?_, result⟩
      rw [runSequence, List.foldlM_cons, run]
      exact runRest

end LiteralHoist.Consolidate
