import LiteralHoist.Proofs.Consolidate.FirstFree
import LiteralHoist.Proofs.Consolidate.Idempotence
import LiteralHoist.Proofs.Consolidate.NameGrammar
import LiteralHoist.Proofs.Consolidate.Survival

/-!
# A class is left as it is the second time

A plan renames constants, so the names that are bound in a class do not only grow.  But a renaming
frees no name that a search would ask about: such a name is made from itself, and a constant that
has it already is renamed only if the name is taken otherwise, which it still is afterwards.  So
under any limit on suffixes, a value that was left alone is left alone again.
-/

set_option autoImplicit false

namespace LiteralHoist.Consolidate

open LiteralHoist.Source LiteralHoist.Document

theorem bindings_le_zero_iff {t : Tree} {c : NodeId} {fqn name : Text} :
    bindings t c fqn name ≤ 0 ↔ ∀ id, t.Below c id → ¬ Binds t fqn name id := by
  rw [nonpos_iff_eq_zero, bindings, Set.encard_eq_zero, Set.eq_empty_iff_forall_notMem]
  exact forall_congr' fun id => not_and

theorem bindings_le_one_iff {t : Tree} {c : NodeId} {fqn name : Text} :
    bindings t c fqn name ≤ 1 ↔ ∀ id id', t.Below c id → Binds t fqn name id →
      t.Below c id' → Binds t fqn name id' → id = id' := by
  rw [bindings, Set.encard_le_one_iff]
  simp only [Set.mem_ofPred_eq, and_imp]

/-- A constant is renamed away from a name that is made from itself only if another group has the
name, or if something else binds it. -/
theorem renamed_away {settings : Settings} {t : Tree} {c : NodeId} {below : Forest} {d : ClassDecl}
    {g : Group} (inPlan : g ∈ (classPlan t settings c below d).groups)
    (isRename : g.action = .rename) (fixed : constantName g.oldName = g.oldName) :
    g.oldName ∈ (classPlan t settings c below d).groups.map Group.name ∨
      1 < (boundIn t c below d.fqn).count g.oldName := by
  have planning := planning_classPlan t settings c below d
  obtain ⟨o, found, value⟩ := List.mem_map.mp (planning.value_mem inPlan)
  obtain ⟨earlier, inside, _, planned⟩ :=
    planning.decision (nodup_values_repeatedIn t settings c below) found
  obtain ⟨⟨i, named, _, before⟩, shape⟩ := planGroup_eq_some (planned g inPlan value.symm)
  cases own : (firstOfEach (declaredIn t d)).find? (·.value == o.value) with
  | none =>
      rw [shape, own] at isRename
      simp [groupOf] at isRename
  | some k =>
      rw [own] at shape
      have old : g.oldName = k.name := by rw [shape]; rfl
      have moved : g.name ≠ k.name := by
        intro same
        rw [shape] at isRename
        simp [groupOf, same] at isRename
      rw [old] at fixed ⊢
      simp only [seedOf, own, fixed] at named before
      have first : i ≠ 0 := by
        rintro rfl
        exact moved named
      have taken := before 0 (by omega)
      rw [takenFor_eq_false_iff, Scope.mem_commitAll, Scope.bound_commitAll, own] at taken
      simp only [suffixed, if_true, List.not_mem_nil, or_false, Option.map_some, not_and, not_le]
        at taken
      by_cases committed : k.name ∈ earlier.map Group.name
      · exact .inl (List.map_subset _ inside committed)
      · exact .inr (taken committed)

theorem FieldVar.binds {t : Tree} {members : List NodeId} {name : Text} {v : NodeId}
    (field : FieldVar t members name v) (fqn : Text) : Binds t fqn name v := by
  obtain ⟨_, _, _, _, _, _, held⟩ := field
  exact .inl held

theorem FieldVar.below {t : Tree} {f below : Forest} {c v : NodeId} {pos : Position}
    {d : ClassDecl} {name : Text} (here : ClassIn t f c below pos d)
    (field : FieldVar t d.members name v) : t.Below c v :=
  (here.occurs.below_iff here.shaped.follows).mpr (field.in_part here)

section Step
variable {settings : Settings} {t t' : Tree} {f below : Forest} {c : NodeId} {pos : Position}
  {d : ClassDecl} (step : ClassStep settings t t' f c below pos d)
include step

/-- What binds a name stays, unless the plan renames it. -/
theorem ClassStep.binds_or_renamed {name : Text} {id : NodeId} (binds : Binds t d.fqn name id) :
    Binds t' d.fqn name id ∨ ∃ g ∈ (classPlan t settings c below d).groups,
      g.action = .rename ∧ g.var = id ∧ g.oldName = name := by
  rcases binds with ⟨varPos, init, held⟩ | ⟨idPos, type, field, held, foreign⟩
  · have held' := step.edited.namedVar step.here step.fits held
    rcases newName_cases step.fits id name with ⟨g, inPlan, isRename, rfl, _⟩ | ⟨_, kept⟩
    · obtain ⟨_, _, _, _, _, _, _, _, before⟩ := step.fits.renamed_field inPlan isRename
      exact .inr ⟨g, inPlan, isRename, rfl, (before.variable_unique held).2.1⟩
    · rw [kept] at held'
      exact .inl (.inl ⟨varPos, init, held'⟩)
  · have held' := step.edited.reference_stays step.here step.fits held rfl (.inr foreign)
    exact .inl (.inr ⟨idPos, type, field, held', foreign⟩)

/-- Beside a field, whatever binds its name stays. -/
theorem ClassStep.binds_beside (distinct : DistinctFieldNames t d) {name : Text} {v id : NodeId}
    (field : FieldVar t d.members name v) (binds : Binds t d.fqn name id) (other : id ≠ v) :
    Binds t' d.fqn name id := by
  rcases step.binds_or_renamed binds with stays | ⟨g, inPlan, isRename, rfl, rfl⟩
  · exact stays
  · exact absurd (distinct field (step.fits.renamed_field inPlan isRename)) other

/-- The constant of a group binds its name. -/
theorem ClassStep.group_binds {g : Group}
    (inPlan : g ∈ (classPlan t settings c below d).groups) :
    ∃ v, IsGroupVar t (classPlan t settings c below d).groups g v ∧ t'.Below c v ∧
      Binds t' d.fqn g.name v := by
  obtain ⟨v, _, _, _, _, isVar, constant⟩ := step.edited.group_constant step.here step.fits inPlan
  exact ⟨v, isVar, constant.fieldVar.below step.classIn, constant.fieldVar.binds _⟩

/-- A name that is made from itself stays bound. -/
theorem ClassStep.stays_bound (distinct : DistinctFieldNames t d) {name : Text}
    (fixed : constantName name = name) {id : NodeId} (lower : t.Below c id)
    (binds : Binds t d.fqn name id) : ∃ id', t'.Below c id' ∧ Binds t' d.fqn name id' := by
  rcases step.binds_or_renamed binds with stays | ⟨g, inPlan, isRename, rfl, rfl⟩
  · exact ⟨id, step.stays_below lower, stays⟩
  · rcases renamed_away inPlan isRename fixed with given | several
    · obtain ⟨g', inPlan', same⟩ := List.mem_map.mp given
      obtain ⟨v, _, lower', binds'⟩ := step.group_binds inPlan'
      exact ⟨v, lower', same ▸ binds'⟩
    · have field := step.fits.renamed_field inPlan isRename
      have more : ¬ bindings t c d.fqn g.oldName ≤ 1 := by
        rw [← count_eq_bindings step.here]
        norm_cast
        omega
      rw [bindings_le_one_iff] at more
      push Not at more
      obtain ⟨a, b, lowerA, bindsA, lowerB, bindsB, differ⟩ := more
      by_cases same : a = g.var
      · have other : b ≠ g.var := fun same' => differ (same.trans same'.symm)
        exact ⟨b, step.stays_below lowerB, step.binds_beside distinct field bindsB other⟩
      · exact ⟨a, step.stays_below lowerA, step.binds_beside distinct field bindsA same⟩

/-- The constant of a value without a group stays a field of its name. -/
theorem ClassStep.constant_stays {k : Constant} (declared : k ∈ declaredIn t d)
    (unplanned : k.value ∉ (classPlan t settings c below d).groups.map Group.value) :
    FieldVar t' (extended t d (classPlan t settings c below d).groups).members k.name k.var := by
  obtain ⟨_, _, _, _, constant⟩ := isConstant_of_mem declared
  have same := congrArg Constant.name (step.fits.afterEdit_eq declared unplanned)
  have after := (step.edited.isConstant_class step.here step.fits constant).fieldVar
  rwa [show newName t c below d.fqn _ k.var k.name = k.name from same] at after

theorem ClassStep.groupVar_ne {k : Constant} (declared : k ∈ declaredIn t d)
    (unplanned : k.value ∉ (classPlan t settings c below d).groups.map Group.value) {g : Group}
    (inPlan : g ∈ (classPlan t settings c below d).groups) {v : NodeId}
    (isVar : IsGroupVar t (classPlan t settings c below d).groups g v) : v ≠ k.var := by
  obtain ⟨_, _, _, _, constant⟩ := isConstant_of_mem declared
  rintro rfl
  rcases isVar with ⟨i, _, new⟩ | ⟨old, same⟩
  · obtain ⟨_, held⟩ := constant.variable_
    have small : t.size + 3 * i + 2 ≤ t.size := new ▸ held.le_size
    omega
  · obtain ⟨_, _, _, _, constant'⟩ := step.fits.constant g inPlan old
    have value : k.value = g.value := constant.value_unique constant' same
    exact unplanned (value ▸ List.mem_map_of_mem inPlan)

/-- A name that is made from itself and free for a value after the step was free before. -/
theorem ClassStep.free_before (distinct : DistinctFieldNames t d) {o : Occurrences}
    (unplanned : o.value ∉ (classPlan t settings c below d).groups.map Group.value)
    {earlier : List Group} (inside : earlier ⊆ (classPlan t settings c below d).groups)
    {name : Text} (fixed : constantName name = name)
    (free : FreeFor t' c d.fqn ((declaredIn t d).find? (·.value == o.value)) [] name) :
    FreeFor t c d.fqn ((declaredIn t d).find? (·.value == o.value)) earlier name := by
  obtain ⟨_, few⟩ := free
  by_cases own : ((declaredIn t d).find? (·.value == o.value)).map Constant.name = some name
  · obtain ⟨k, found, rfl⟩ := Option.map_eq_some_iff.mp own
    have declared := List.mem_of_find?_eq_some found
    have value : k.value = o.value := by simpa using List.find?_some found
    rw [← value] at unplanned
    rw [if_pos own, bindings_le_one_iff] at few
    have stays := step.constant_stays declared unplanned
    have here := stays.below step.classIn
    have field : FieldVar t d.members k.name k.var := by
      obtain ⟨_, _, _, _, constant⟩ := isConstant_of_mem declared
      exact constant.fieldVar
    refine ⟨fun given => ?_, ?_⟩
    · obtain ⟨g, early, same⟩ := List.mem_map.mp given
      obtain ⟨v, isVar, lower, binds⟩ := step.group_binds (inside early)
      rw [same] at binds
      exact step.groupVar_ne declared unplanned (inside early) isVar
        (few v k.var lower binds here (stays.binds _))
    · rw [if_pos own, bindings_le_one_iff]
      have only : ∀ id, t.Below c id → Binds t d.fqn k.name id → id = k.var := by
        intro id lower binds
        by_contra other
        exact other (few id k.var (step.stays_below lower)
          (step.binds_beside distinct field binds other) here (stays.binds _))
      intro id id' lower binds lower' binds'
      rw [only id lower binds, only id' lower' binds']
  · rw [if_neg own, bindings_le_zero_iff] at few
    refine ⟨fun given => ?_, ?_⟩
    · obtain ⟨g, early, rfl⟩ := List.mem_map.mp given
      obtain ⟨v, _, lower, binds⟩ := step.group_binds (inside early)
      exact few v lower binds
    · rw [if_neg own, bindings_le_zero_iff]
      intro id lower binds
      obtain ⟨id', lower', binds'⟩ := step.stays_bound distinct fixed lower binds
      exact few id' lower' binds'

/-- A value that was left alone is left alone again. -/
theorem ClassStep.planGroup_again (distinct : DistinctFieldNames t d) {o : Occurrences}
    (found : o ∈ repeatedIn t settings c below)
    (unplanned : o.value ∉ (classPlan t settings c below d).groups.map Group.value) :
    planGroup settings
      (firstOfEach (declaredIn t' (extended t d (classPlan t settings c below d).groups)))
      { bound := boundIn t' c (below.insertAt d.annotations.length
        (newDeclarations t (classPlan t settings c below d).groups)) d.fqn } o = none := by
  have planning := planning_classPlan t settings c below d
  obtain ⟨earlier, inside, skipped, _⟩ :=
    planning.decision (nodup_values_repeatedIn t settings c below) found
  have same := step.edited.find?_declaredIn step.here step.fits unplanned
  have seed : seedOf (firstOfEach
      (declaredIn t' (extended t d (classPlan t settings c below d).groups))) o =
      seedOf (firstOfEach (declaredIn t d)) o :=
    seedOf_congr (by rw [find?_firstOfEach, find?_firstOfEach, same])
  have before := planGroup_eq_none_iff.mp (skipped unplanned)
  rw [planGroup_eq_none_iff, seed]
  by_cases unnamed : constantName (seedOf (firstOfEach (declaredIn t d)) o) = ""
  · exact .inl unnamed
  · obtain ⟨limited, taken⟩ := before.resolve_left unnamed
    refine .inr ⟨limited, fun i within => ?_⟩
    by_contra free
    have fullName : (extended t d (classPlan t settings c below d).groups).fqn = d.fqn := rfl
    rw [Bool.not_eq_true, ← fullName] at free
    have now : FreeFor t' c _ _ [] _ := (takenFor_eq_false_iff_freeFor step.classIn).mp free
    rw [same, fullName] at now
    have then_ := step.free_before distinct unplanned inside (constantName_suffixed unnamed i) now
    rw [← takenFor_eq_false_iff_freeFor step.here, taken i within] at then_
    simp at then_

theorem ClassStep.classPlan_again (distinct : DistinctFieldNames t d) :
    classPlan t' settings c (below.insertAt d.annotations.length
        (newDeclarations t (classPlan t settings c below d).groups))
        (extended t d (classPlan t settings c below d).groups) =
      withoutGroups (classPlan t settings c below d) := by
  have first := (planning_classPlan t settings c below d).skipped_eq
    (nodup_values_repeatedIn t settings c below)
  rw [← step.repeatedIn_eq] at first
  obtain ⟨noGroups, skipped⟩ := (planning_classPlan t' settings c _ _).eq_nil (fun o found => by
    rw [step.repeatedIn_eq, List.mem_filter] at found
    exact step.planGroup_again distinct found.1 (by simpa using found.2))
  rw [← first] at skipped
  rw [withoutGroups, ← skipped, ← noGroups]
  rfl

end Step

/-- Under any limit on suffixes, a second run on a class whose fields have different names has no
groups, skips what the first run skipped and leaves the tree as it is. -/
theorem second_class_run_changes_nothing {codec : Codec} {bytes : List UInt8} {doc : Document}
    (accepted : Document.read codec bytes = .ok doc) {t : Tree} (member : t ∈ doc.trees)
    {c : NodeId} {pos : Position} {d : ClassDecl} (held : t.Holds c ⟨pos, .classDecl d⟩)
    (resolved : d.fqn ≠ "") (distinct : DistinctFieldNames t d) (settings : Settings) :
    ∃ first second, runClass settings t c = .ok (.ok first) ∧
      runClass settings first.tree c = .ok (.ok second) ∧ second.plan.groups = [] ∧
      second.plan.skipped = first.plan.skipped ∧ second.tree = first.tree ∧ second.stats = {} := by
  obtain ⟨f, below, here⟩ := exists_classIn_of_reached accepted member .read held
  obtain ⟨first, run, plan, step⟩ := runClass_edited settings here resolved
  have planned := planClass_eq step.classIn settings resolved
  rw [step.classPlan_again distinct, ← plan] at planned
  exact ⟨first, _, run, runClass_of_no_groups planned rfl, rfl, rfl, rfl, rfl⟩

/-- A class with a constant `GO`, the value of the constant twice and the value `"go"` twice.  The
parameter of a method is called `GO` as well. -/
def wedgedUnit : Tree where
  root := 19
  nodes := #[
    some { form := .literal { value := "off", type := "String" } },
    some { form := .namedVar "GO" 1 },
    some { form := .varDecl { mods := .constant, type := "String", vars := [2] } },
    some { form := .literal { value := "off", type := "String" } },
    some { form := .literal { value := "off", type := "String" } },
    some { form := .binary "+" 4 5 "" },
    some { form := .namedVar "x" 6 },
    some { form := .varDecl { mods := .ofList [.final], type := "String", vars := [7] } },
    some { form := .literal { value := "go", type := "String" } },
    some { form := .literal { value := "go", type := "String" } },
    some { form := .binary "+" 9 10 "" },
    some { form := .namedVar "y" 11 },
    some { form := .varDecl { mods := .ofList [.final], type := "String", vars := [12] } },
    some { form := .namedVar "GO" 0 },
    some { form := .varDecl { type := "String", vars := [14] } },
    some { form := .block [] },
    some { form := .method { result := "void", name := "run", params := [15], body := 16 } },
    some { form := .classDecl { name := "A", fqn := "A", members := [3, 8, 13, 17] } },
    some { form := .unit { name := "A.java", classes := [18] } }]

/-- With one suffix at most, the constant becomes `GO_1` and no name is left for `"go"`, in the
first run and in the second. -/
theorem wedgedUnit_second_class_run :
    ∃ first second, runClass { maxSuffix := 1 } wedgedUnit 18 = .ok (.ok first) ∧
      first.plan.groups.map (fun g => (g.action, g.oldName, g.name)) =
        ([(.rename, "GO", "GO_1")] : List (Action × Text × Text)) ∧
      first.plan.skipped = [⟨"go", [9, 10]⟩] ∧
      runClass { maxSuffix := 1 } first.tree 18 = .ok (.ok second) ∧ second.plan.groups = [] ∧
      second.plan.skipped = first.plan.skipped ∧ second.tree = first.tree ∧
      second.stats = {} := by
  have accepted := read_writtenUnit (t := wedgedUnit) (by decide +kernel)
  obtain ⟨first, second, run, result⟩ := second_class_run_changes_nothing accepted
    (List.mem_singleton.mpr rfl) (show wedgedUnit.Holds 18 ⟨{}, .classDecl
      { name := "A", fqn := "A", members := [3, 8, 13, 17] }⟩ from rfl) (by decide)
    (distinctFieldNames_of_check (by decide +kernel)) { maxSuffix := 1 }
  have plans : (runClass { maxSuffix := 1 } wedgedUnit 18).toOption.map
      (fun result => result.toOption.map fun r =>
        (r.plan.groups.map fun g => (g.action, g.oldName, g.name), r.plan.skipped)) =
      some (some (([(.rename, "GO", "GO_1")] : List (Action × Text × Text)),
        [⟨"go", [9, 10]⟩])) := by decide +kernel
  rw [run] at plans
  simp only [Except.toOption, Option.map_some, Option.some_inj, Prod.mk.injEq] at plans
  exact ⟨first, second, run, plans.1, plans.2, result⟩

end LiteralHoist.Consolidate
