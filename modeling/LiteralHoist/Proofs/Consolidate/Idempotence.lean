import LiteralHoist.Proofs.Consolidate.Course
import LiteralHoist.Proofs.Consolidate.Decision
import LiteralHoist.Proofs.Consolidate.Settle
import LiteralHoist.Proofs.Document.Decoded

/-!
# A second run changes nothing

Without a limit on suffixes, the step of a class settles it, and no later step of the run unsettles
it.  So a run leaves every class settled or unresolved, and a second run with the same settings
finds nothing to do: it skips the same values and leaves the tree as it is.
-/

set_option autoImplicit false

namespace LiteralHoist.Consolidate

open LiteralHoist.Source LiteralHoist.Document

/-- No name can be made for any repeated value of a class, and these values are what its plan
skips. -/
def Settled (settings : Settings) (t : Tree) (p : Plan) : Prop :=
  ∃ f below pos d, ClassIn t f p.classId below pos d ∧ d.fqn ≠ "" ∧ p.fqn = d.fqn ∧
    p.skipped = (repeatedIn t settings p.classId below).map skipOf ∧
    ∀ o ∈ repeatedIn t settings p.classId below,
      constantName (seedOf (firstOfEach (declaredIn t d)) o) = ""

def withoutGroups (p : Plan) : Plan :=
  { p with groups := [] }

theorem planClass_settled {settings : Settings} (unlimited : settings.maxSuffix = 0) {t : Tree}
    {p : Plan} (settled : Settled settings t p) :
    planClass t settings p.classId = .ok (.ok (withoutGroups p)) := by
  obtain ⟨f, below, pos, d, here, resolved, fqn, skipped, unnamed⟩ := settled
  obtain ⟨groups_eq, skipped_eq⟩ :=
    (planning_classPlan t settings p.classId below d).unlimited unlimited
  have noGroups : (classPlan t settings p.classId below d).groups = [] := by
    have none : (repeatedIn t settings p.classId below).filter
        (fun o => constantName (seedOf (firstOfEach (declaredIn t d)) o) ≠ "") = [] := by
      rw [List.filter_eq_nil_iff]
      intro o member
      simp [unnamed o member]
    rw [none] at groups_eq
    exact List.map_eq_nil_iff.mp groups_eq
  have allSkipped : (classPlan t settings p.classId below d).skipped = p.skipped := by
    rw [skipped_eq, skipped, List.filter_eq_self.mpr]
    intro o member
    simp [unnamed o member]
  rw [planClass_eq here settings resolved]
  have same : classPlan t settings p.classId below d = withoutGroups p := by
    rw [withoutGroups, fqn, ← allSkipped, ← noGroups]
    rfl
  rw [same]

theorem runClass_settled {settings : Settings} (unlimited : settings.maxSuffix = 0) {t : Tree}
    {p : Plan} (settled : Settled settings t p) :
    runClass settings t p.classId = .ok (.ok
      ⟨t, withoutGroups p, {}, Report.eventsOf (withoutGroups p)⟩) :=
  runClass_of_no_groups (planClass_settled unlimited settled) rfl

section Step
variable {settings : Settings} {t t' : Tree} {f below : Forest} {c : NodeId} {pos : Position}
  {d : ClassDecl}

theorem seedOf_congr {existing existing' : List Constant} {o : Occurrences}
    (same : existing'.find? (·.value == o.value) = existing.find? (·.value == o.value)) :
    seedOf existing' o = seedOf existing o := by
  rw [seedOf, seedOf, same]

/-- A repeated value has a group exactly if a name can be made for it. -/
theorem planned_iff_named (unlimited : settings.maxSuffix = 0) {o : Occurrences}
    (found : o ∈ repeatedIn t settings c below) :
    o.value ∈ (classPlan t settings c below d).groups.map Group.value ↔
      constantName (seedOf (firstOfEach (declaredIn t d)) o) ≠ "" := by
  obtain ⟨groups_eq, _⟩ := (planning_classPlan t settings c below d).unlimited unlimited
  have values : (classPlan t settings c below d).groups.map Group.value =
      ((repeatedIn t settings c below).filter fun o =>
        constantName (seedOf (firstOfEach (declaredIn t d)) o) ≠ "").map Occurrences.value := by
    rw [← groups_eq, List.map_map]
    rfl
  have nodup : ((repeatedIn t settings c below).map Occurrences.value).Nodup := by
    have all := nodup_distinct ((occurrencesIn t settings c below).map Prod.fst)
    rw [← values_groupByValue] at all
    exact all.sublist (List.filter_sublist.map _)
  rw [values, List.mem_map]
  constructor
  · rintro ⟨o', member, same⟩
    obtain ⟨found', named⟩ := List.mem_filter.mp member
    obtain rfl := List.inj_on_of_nodup_map nodup found' found same
    simpa using named
  · intro named
    exact ⟨o, List.mem_filter.mpr ⟨found, by simpa using named⟩, rfl⟩

/-- Of the repeated values of the class, those remain that have no group. -/
theorem ClassStep.repeatedIn_eq (step : ClassStep settings t t' f c below pos d) :
    repeatedIn t' settings c (below.insertAt d.annotations.length
        (newDeclarations t (classPlan t settings c below d).groups)) =
      (repeatedIn t settings c below).filter fun o =>
        !((classPlan t settings c below d).groups.map Group.value).contains o.value := by
  rw [repeatedIn, step.occurrencesIn_eq, groupByValue_filter fun value =>
    !((classPlan t settings c below d).groups.map Group.value).contains value, repeatedIn,
    List.filter_filter, List.filter_filter]
  refine List.filter_congr fun o _ => ?_
  rw [Bool.and_comm]

/-- The step of a class settles it. -/
theorem ClassStep.settles (step : ClassStep settings t t' f c below pos d)
    (unlimited : settings.maxSuffix = 0) :
    Settled settings t' (classPlan t settings c below d) := by
  refine ⟨_, _, pos, _, step.classIn, step.resolved, rfl, ?_, ?_⟩
  · have skipped_eq := ((planning_classPlan t settings c below d).unlimited unlimited).2
    rw [skipped_eq]
    refine congrArg (List.map skipOf) ?_
    rw [show (classPlan t settings c below d).classId = c from rfl, step.repeatedIn_eq]
    refine List.filter_congr fun o found => ?_
    have planned := planned_iff_named (d := d) unlimited found
    by_cases unnamed : constantName (seedOf (firstOfEach (declaredIn t d)) o) = ""
    · have absent := planned.not.mpr (not_not.mpr unnamed)
      simpa [unnamed] using absent
    · have present := planned.mpr unnamed
      simpa [unnamed] using present
  · intro o found
    rw [show (classPlan t settings c below d).classId = c from rfl, step.repeatedIn_eq] at found
    obtain ⟨found', unplanned⟩ := List.mem_filter.mp found
    have absent : o.value ∉ (classPlan t settings c below d).groups.map Group.value := by
      simpa using unplanned
    have unnamed := not_not.mp ((planned_iff_named (d := d) unlimited found').not.mp absent)
    rwa [seedOf_congr]
    rw [find?_firstOfEach, find?_firstOfEach,
      step.edited.find?_declaredIn step.here step.fits absent]

theorem ClassStep.settled (step : ClassStep settings t t' f c below pos d) {p : Plan}
    (settled : Settled settings t p) (other : p.classId ≠ c) : Settled settings t' p := by
  obtain ⟨g, within, xPos, dx, there, resolved, fqn, skipped, unnamed⟩ := settled
  have inside : p.classId ∈ f.ids :=
    step.here.shaped.below_root.mp (there.shaped.below_root.mpr there.mem)
  obtain ⟨within', there'⟩ := Shaped.exists_classIn step.here.shaped inside there.held
  obtain rfl := there'.below_unique there
  have same : repeatedIn t' settings p.classId (within.graft c d.annotations.length
      (newDeclarations t (classPlan t settings c below d).groups)) =
      repeatedIn t settings p.classId within := by
    rw [repeatedIn, step.occurrencesIn_other there' other, repeatedIn]
  refine ⟨_, _, xPos, dx, step.classIn_other there' other, resolved, fqn, ?_, ?_⟩
  · rw [same, skipped]
  · rw [same, step.edited.declaredIn_other step.here step.fits inside there.held other]
    exact unnamed

theorem ClassStep.unresolved (step : ClassStep settings t t' f c below pos d) {x : NodeId}
    {xPos : Position} {dx : ClassDecl} (held : t.Holds x ⟨xPos, .classDecl dx⟩)
    (unresolved : dx.fqn = "") : t'.Holds x ⟨xPos, .classDecl dx⟩ := by
  refine step.edited.class_other step.here step.fits held ?_
  rintro rfl
  obtain ⟨_, rfl⟩ := held.class_unique step.here.held
  exact step.resolved unresolved

theorem ClassStep.usesType (step : ClassStep settings t t' f c below pos d)
    {accepts : Text → Bool} (uses : t.usesType accepts t.root = .ok true) :
    t'.usesType accepts t'.root = .ok true := by
  rw [usesType_eq step.here.shaped] at uses
  rw [usesType_eq step.shaped]
  obtain ⟨id, member, found⟩ := List.any_eq_true.mp (Except.ok.inj uses)
  obtain ⟨n, held⟩ := step.here.shaped.follows.holds member
  obtain ⟨n', held', resembles⟩ := step.edited.resembles step.here step.fits held
  refine congrArg Except.ok (List.any_eq_true.mpr ⟨id, step.mem_of_mem member, ?_⟩)
  rw [held.peek_eq] at found
  rw [held'.peek_eq]
  simpa only [mentions, resembles.mentionedType] using found

end Step

/-- The classes of a list are settled, with the given plans, or unresolved. -/
inductive AtRest (settings : Settings) (t : Tree) : List NodeId → List Plan → Prop where
  | done : AtRest settings t [] []
  | pass {c : NodeId} {pos : Position} {d : ClassDecl} {rest : List NodeId} {plans : List Plan}
      (held : t.Holds c ⟨pos, .classDecl d⟩) (unresolved : d.fqn = "")
      (later : AtRest settings t rest plans) : AtRest settings t (c :: rest) plans
  | settled {p : Plan} {rest : List NodeId} {plans : List Plan} (here : Settled settings t p)
      (later : AtRest settings t rest plans) : AtRest settings t (p.classId :: rest) (p :: plans)

section Course
variable {settings : Settings} {t t' : Tree} {classes : List NodeId} {plans : List Plan}

theorem Course.settled (course : Course settings t classes plans t') {p : Plan}
    (settled : Settled settings t p) (absent : p.classId ∉ classes) : Settled settings t' p := by
  induction course with
  | done => exact settled
  | pass _ _ _ ih => exact ih settled (fun later => absent (List.mem_cons_of_mem _ later))
  | edit step _ ih =>
      simp only [List.mem_cons, not_or] at absent
      exact ih (step.settled settled absent.1) absent.2

/-- A run without a limit leaves every class settled or unresolved. -/
theorem Course.atRest (course : Course settings t classes plans t')
    (unlimited : settings.maxSuffix = 0) (once : classes.Nodup) :
    AtRest settings t' classes plans := by
  induction course with
  | done => exact .done
  | @pass t t' c pos d rest plans held unresolved later ih =>
      have kept := later.preserves (fun u => u.Holds c ⟨pos, .classDecl d⟩)
        (fun step before => step.unresolved before unresolved) held
      exact .pass kept unresolved (ih once.of_cons)
  | edit step later ih =>
      rw [List.nodup_cons] at once
      exact .settled (later.settled (step.settles unlimited) once.1) (ih once.2)

/-- A run over classes at rest changes nothing. -/
theorem runClasses_atRest (unlimited : settings.maxSuffix = 0) (file : Text)
    (atRest : AtRest settings t classes plans) : ∀ r : UnitRun, r.tree = t → r.stats = {} →
    ∃ r', classes.foldlM (UnitRun.runClass settings file) r = .ok r' ∧ r'.tree = t ∧
      r'.stats = {} ∧ r'.plans = r.plans ++ plans.map withoutGroups := by
  induction atRest with
  | done =>
      rintro r tree stats
      exact ⟨r, rfl, tree, stats, by simp⟩
  | @pass c pos d rest plans held unresolved _ ih =>
      rintro r rfl stats
      obtain ⟨r₁, first, tree₁, plans₁, stats₁⟩ :=
        UnitRun.runClass_pass settings file held unresolved
      obtain ⟨r', run, result⟩ := ih r₁ tree₁ (stats₁.trans stats)
      rw [plans₁] at result
      refine ⟨r', ?_, result⟩
      rw [List.foldlM_cons, first, ok_bind, run]
  | @settled p rest plans here _ ih =>
      rintro r rfl stats
      obtain ⟨r₁, first, tree₁, plans₁, stats₁⟩ :=
        UnitRun.runClass_ran file (runClass_settled unlimited here)
      have nothing : r₁.stats = {} := by simp [stats₁, stats, Stats.add]
      obtain ⟨r', run, tree, stats', plans_eq⟩ := ih r₁ tree₁ nothing
      refine ⟨r', ?_, tree, stats', ?_⟩
      · rw [List.foldlM_cons, first, ok_bind, run]
      · rw [plans_eq, plans₁, List.map_cons, List.append_assoc, List.singleton_append]

end Course

theorem classes_nodup {t : Tree} {f : Forest} (shaped : Shaped t f) {all : List NodeId}
    (listed : t.classes t.root = .ok all) : all.Nodup := by
  rw [classes_eq shaped] at listed
  rw [← Except.ok.inj listed]
  exact shaped.nodup.filter _

/-- A second run with the same settings and no limit on suffixes has plans without groups, skips
what the first run skipped, makes no edit and leaves the tree as it is. -/
theorem second_run_changes_nothing {codec : Codec} {bytes : List UInt8} {doc : Document}
    (accepted : Document.read codec bytes = .ok doc) {t : Tree} (member : t ∈ doc.trees)
    (present : t.root ≠ 0) {settings : Settings} (unlimited : settings.maxSuffix = 0) :
    ∃ first second, runUnit settings t = .ok first ∧
      runUnit settings first.tree = .ok second ∧ second.tree = first.tree ∧
      second.stats = {} ∧
      second.plans = first.plans.map fun p => { p with groups := [] } := by
  have conforms := conforms_of_read accepted member present
  obtain ⟨first, run, ⟨gate, rfl⟩ | ⟨all, gate, listed, course⟩⟩ :=
    runUnit_course settings conforms
  · exact ⟨_, _, run, run, rfl, rfl, rfl⟩
  · have conforms' := course.preserves Tree.Conforms (fun step _ => step.conforms) conforms
    have gate' := course.preserves (fun u => u.usesType isStringType u.root = .ok true)
      (fun step uses => step.usesType uses) gate
    have listed' := course.preserves (fun u => u.classes u.root = .ok all)
      (fun step before => step.classes_eq.trans before) listed
    obtain ⟨f, shaped⟩ := conforms
    have atRest := course.atRest unlimited (classes_nodup shaped listed)
    obtain ⟨file, named⟩ := unitName_eq conforms'
    obtain ⟨second, again, tree, stats, plans⟩ := runClasses_atRest unlimited file atRest
      { tree := first.tree } rfl rfl
    refine ⟨first, second, run, ?_, tree, stats, ?_⟩
    · rw [runUnit, gate', ok_bind]
      simp only [if_true, named, ok_bind, listed']
      exact again
    · rw [plans]
      rfl

/-- A class with two final fields: the value `"on"` occurs twice in the one, and `"-"`, which no
name can be made from, twice in the other.  The type of a nested class was not resolved. -/
def skippingUnit : Tree where
  root := 13
  nodes := #[
    some { form := .literal { value := "on", type := "String" } },
    some { form := .literal { value := "on", type := "String" } },
    some { form := .binary "+" 1 2 "" },
    some { form := .namedVar "x" 3 },
    some { form := .varDecl { mods := .ofList [.final], type := "String", vars := [4] } },
    some { form := .literal { value := "-", type := "String" } },
    some { form := .literal { value := "-", type := "String" } },
    some { form := .binary "+" 6 7 "" },
    some { form := .namedVar "y" 8 },
    some { form := .varDecl { mods := .ofList [.final], type := "String", vars := [9] } },
    some { form := .classDecl { name := "B" } },
    some { form := .classDecl { name := "A", fqn := "A", members := [5, 10, 11] } },
    some { form := .unit { name := "A.java", classes := [12] } }]

theorem skippingUnit_second_run :
    ∃ first second, runUnit {} skippingUnit = .ok first ∧ first.stats.inserted = 1 ∧
      first.plans.map Plan.skipped = [[⟨"-", [6, 7]⟩]] ∧
      runUnit {} first.tree = .ok second ∧ second.tree = first.tree ∧ second.stats = {} ∧
      second.plans = first.plans.map fun p => { p with groups := [] } := by
  have accepted := read_writtenUnit (t := skippingUnit) (by decide +kernel)
  obtain ⟨first, second, run, result⟩ := second_run_changes_nothing accepted
    (List.mem_singleton.mpr rfl) (by decide) (show ({} : Settings).maxSuffix = 0 from rfl)
  have plans : (runUnit {} skippingUnit).toOption.map
      (fun r => (r.stats.inserted, r.plans.map Plan.skipped)) =
      some (1, [[⟨"-", [6, 7]⟩]]) := by decide +kernel
  rw [run, Except.toOption, Option.map_some, Option.some_inj, Prod.mk.injEq] at plans
  exact ⟨first, second, run, plans.1, plans.2, result⟩

end LiteralHoist.Consolidate
