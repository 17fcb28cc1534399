import LiteralHoist.Proofs.Consolidate.Course
import LiteralHoist.Proofs.Document.Decoded

/-!
# References out of a class

A simple name in a class may refer to a field of a class that encloses it, or of any class outside.
A constant of that name in the inner class would capture the reference.  Classes are taken before
the classes nested in them: when a class chooses the names of its constants, the references out of
it have their final names already, since the classes that come later neither enclose it nor edit
anything outside of themselves.
-/

set_option autoImplicit false

namespace LiteralHoist.Consolidate

open LiteralHoist.Source LiteralHoist.Document

/-- A simple name in a class refers to a field of neither the class nor a class nested in it. -/
def ReachesOut (t : Tree) (c id : NodeId) (name : Text) : Prop :=
  t.Below c id ∧ ∃ pos type field, t.Holds id ⟨pos, .ident name type (some field)⟩ ∧
    ∀ x xPos dx, t.Below c x → t.Holds x ⟨xPos, .classDecl dx⟩ → dx.fqn ≠ field.owner

def Avoids (t : Tree) (c : NodeId) (name : Text) : Prop :=
  ∀ id other, ReachesOut t c id other → other ≠ name

section Step
variable {settings : Settings} {t t' : Tree} {f below : Forest} {c : NodeId} {pos : Position}
  {d : ClassDecl}

/-- A simple name outside the class, or one that refers to a field of another class, was there
before the step. -/
theorem ClassStep.ident_before (step : ClassStep settings t t' f c below pos d) {id : NodeId}
    {idPos : Position} {name type : Text} {field : FieldSymbol}
    (inUnit : id ∈ (editedForest t f c d (classPlan t settings c below d).groups).ids)
    (held' : t'.Holds id ⟨idPos, .ident name type (some field)⟩)
    (elsewhere : ¬ t.Below c id ∨ field.owner ≠ d.fqn) :
    id ∈ f.ids ∧ t.Holds id ⟨idPos, .ident name type (some field)⟩ := by
  rcases List.mem_append.mp ((perm_ids_editedForest step.here _).subset inUnit) with fresh | old
  · simpa [Node.kind, Form.kind] using step.edited.kind_new fresh held'
  refine ⟨old, ?_⟩
  obtain ⟨n, held⟩ := step.here.shaped.follows.holds old
  rcases step.edited.old step.here step.fits held with
    ⟨rfl, _⟩ | ⟨g, inPlan, site, _, _, _, _, reference, owner, _⟩ | ⟨_, _, kept⟩
  · simpa using held'.unique step.edited.class_
  · have same := held'.unique reference
    simp only [Node.mk.injEq, Form.ident.injEq, Option.some.injEq] at same
    rcases elsewhere with outside | other
    · exact absurd (step.fits.owned g inPlan id site).isBelow outside
    · exact absurd (same.2.2.2 ▸ owner) other
  · have owners := relabelAll_keeps (fun form => (referenceOf form).map FieldSymbol.owner)
      (fun _ form => by cases form <;> rfl)
      (fun name form => by rw [referenceOf_renamedForm, Option.map_map]; rfl)
      (renamingsIn t c below d.fqn (classPlan t settings c below d).groups) id n.form
    have form_eq := congrArg Node.form (kept.unique held')
    simp only [reform] at form_eq
    rw [form_eq] at owners
    obtain ⟨field₀, isReference, owner⟩ := Option.map_eq_some_iff.mp owners.symm
    have stays := step.edited.reference_stays step.here step.fits held isReference (by
      rw [← step.here.occurs.below_iff step.here.shaped.follows, owner]
      exact elsewhere)
    rwa [stays.unique held'] at held

theorem ClassStep.class_after (step : ClassStep settings t t' f c below pos d) {x : NodeId}
    {xPos : Position} {dx : ClassDecl} (held : t.Holds x ⟨xPos, .classDecl dx⟩) :
    ∃ dx', t'.Holds x ⟨xPos, .classDecl dx'⟩ ∧ dx'.fqn = dx.fqn := by
  by_cases same : x = c
  · subst same
    obtain ⟨rfl, rfl⟩ := held.class_unique step.here.held
    exact ⟨_, step.edited.class_, rfl⟩
  · exact ⟨dx, step.edited.class_other step.here step.fits held same, rfl⟩

/-- The references out of a class were there before the step of a class that does not enclose
it. -/
theorem ClassStep.reachesOut_before (step : ClassStep settings t t' f c below pos d) {x : NodeId}
    (inUnit : t.Below t.root x) (notAbove : ¬ t.Below c x) {id : NodeId} {name : Text}
    (reaches : ReachesOut t' x id name) : ReachesOut t x id name := by
  obtain ⟨lower', idPos, type, field, held', foreign'⟩ := reaches
  have xIn := step.here.shaped.below_root.mp inUnit
  have foreign : ∀ y yPos dy, t.Below x y → t.Holds y ⟨yPos, .classDecl dy⟩ →
      dy.fqn ≠ field.owner := by
    intro y yPos dy lower class_ same
    obtain ⟨dy', class', full⟩ := step.class_after class_
    exact foreign' y yPos dy' (step.stays_below lower) class' (full.trans same)
  have elsewhere : ¬ t.Below c id ∨ field.owner ≠ d.fqn := by
    by_contra inClass
    simp only [not_or, not_not, ne_eq] at inClass
    have idIn := step.here.shaped.follows.below_mem step.here.mem inClass.1
    have lower := (step.below_iff xIn idIn).mp lower'
    rcases Forest.below_or_below step.here.shaped.follows step.here.shaped.nodup step.here.mem xIn
      inClass.1 lower with above | nested
    · exact notAbove above
    · exact foreign c pos d nested step.here.held inClass.2.symm
  obtain ⟨idIn, held⟩ := step.ident_before
    (step.shaped.follows.below_mem (step.mem_of_mem xIn) lower') held' elsewhere
  exact ⟨(step.below_iff xIn idIn).mp lower', idPos, type, field, held, foreign⟩

/-- The names that a step brings into its class avoid the references out of the class. -/
theorem ClassStep.avoids_new (step : ClassStep settings t t' f c below pos d) {g : Group}
    (inPlan : g ∈ (classPlan t settings c below d).groups) (new : g.action ≠ .reuse) :
    Avoids t' c g.name := by
  rintro id name ⟨lower', idPos, type, field, held', foreign⟩ rfl
  have owner : field.owner ≠ d.fqn := (foreign c pos _ .refl step.edited.class_).symm
  have cIn := step.here.mem
  obtain ⟨idIn, held⟩ := step.ident_before
    (step.shaped.follows.below_mem (step.mem_of_mem cIn) lower') held' (.inr owner)
  have lower := (step.below_iff cIn idIn).mp lower'
  exact step.fits.unbound g inPlan new (bound_of_foreign step.here lower held owner)

end Step

/-- The classes of a list are in the unit, none before a class that encloses it. -/
def OuterFirst (t : Tree) (classes : List NodeId) : Prop :=
  (∀ x ∈ classes, t.Below t.root x) ∧ classes.Nodup ∧
    classes.Pairwise fun earlier later => ¬ t.Below later earlier

theorem OuterFirst.step {settings : Settings} {t t' : Tree} {f below : Forest} {c : NodeId}
    {pos : Position} {d : ClassDecl} {rest : List NodeId} (outer : OuterFirst t (c :: rest))
    (step : ClassStep settings t t' f c below pos d) : OuterFirst t' rest := by
  obtain ⟨inUnit, nodup, order⟩ := outer
  have mem : ∀ x ∈ rest, x ∈ f.ids := fun x inRest =>
    step.here.shaped.below_root.mp (inUnit x (by simp [inRest]))
  refine ⟨fun x inRest => step.below_root (inUnit x (by simp [inRest])),
    (List.nodup_cons.mp nodup).2, ?_⟩
  refine (List.pairwise_cons.mp order).2.imp_of_mem fun {a b} aIn bIn apart => ?_
  rwa [step.below_iff (mem b bIn) (mem a aIn)]

theorem OuterFirst.tail {t : Tree} {c : NodeId} {rest : List NodeId}
    (outer : OuterFirst t (c :: rest)) : OuterFirst t rest :=
  ⟨fun x inRest => outer.1 x (by simp [inRest]), (List.nodup_cons.mp outer.2.1).2,
    (List.pairwise_cons.mp outer.2.2).2⟩

theorem outerFirst_classes {t : Tree} (conforms : t.Conforms) {all : List NodeId}
    (listed : t.classes t.root = .ok all) : OuterFirst t all := by
  obtain ⟨f, shaped⟩ := conforms
  rw [classes_eq shaped] at listed
  obtain rfl := Except.ok.inj listed
  exact ⟨fun x member => shaped.below_root.mpr (List.mem_filter.mp member).1,
    shaped.nodup.filter _, (Forest.pairwise_not_below shaped.follows shaped.nodup).filter _⟩

/-- The classes that come later leave the fields of a class and the references out of it alone. -/
theorem Course.leaves {settings : Settings} {t t' : Tree} {classes : List NodeId}
    {plans : List Plan} (course : Course settings t classes plans t')
    (outer : OuterFirst t classes) {x : NodeId} (inUnit : t.Below t.root x) (done : x ∉ classes)
    (notAbove : ∀ c ∈ classes, ¬ t.Below c x) {xPos : Position} {dx : ClassDecl}
    (held : t.Holds x ⟨xPos, .classDecl dx⟩) :
    t'.Holds x ⟨xPos, .classDecl dx⟩ ∧
      (∀ name v, FieldVar t' dx.members name v ↔ FieldVar t dx.members name v) ∧
      ∀ name, Avoids t x name → Avoids t' x name := by
  induction course with
  | done => exact ⟨held, fun _ _ => .rfl, fun _ avoids => avoids⟩
  | pass _ _ _ ih =>
      exact ih outer.tail inUnit (fun member => done (by simp [member]))
        (fun c member => notAbove c (by simp [member])) held
  | @edit t u t' f below c pos d rest plans step _ ih =>
      have other : x ≠ c := fun same => done (by simp [same])
      have xIn := step.here.shaped.below_root.mp inUnit
      have notAbove' : ∀ y ∈ rest, ¬ u.Below y x := by
        intro y member
        have yIn := step.here.shaped.below_root.mp (outer.1 y (by simp [member]))
        rw [step.below_iff yIn xIn]
        exact notAbove y (by simp [member])
      obtain ⟨held', fields, avoids⟩ := ih (outer.step step) (step.below_root inUnit)
        (fun member => done (by simp [member])) notAbove'
        (step.edited.class_other step.here step.fits held other)
      refine ⟨held', fun name v => ?_, fun name avoided => avoids name ?_⟩
      · rw [fields, step.edited.fieldVar_other step.here step.fits xIn held other]
      · intro id other' reaches
        exact avoided id other'
          (step.reachesOut_before inUnit (notAbove c (by simp)) reaches)

/-- A field of a class that was not there before a run, or had another name, avoids the references
out of the class. -/
theorem Course.avoids {settings : Settings} {t t' : Tree} {classes : List NodeId}
    {plans : List Plan} (course : Course settings t classes plans t')
    (outer : OuterFirst t classes) {x : NodeId} (inUnit : t.Below t.root x) {xPos : Position}
    {dx : ClassDecl} (held : t.Holds x ⟨xPos, .classDecl dx⟩) :
    ∃ dx', t'.Holds x ⟨xPos, .classDecl dx'⟩ ∧ dx'.fqn = dx.fqn ∧
      ∀ name v, FieldVar t' dx'.members name v → ¬ FieldVar t dx.members name v →
        Avoids t' x name := by
  induction course with
  | done => exact ⟨dx, held, rfl, fun _ _ field before => absurd field before⟩
  | pass _ _ _ ih => exact ih outer.tail inUnit held
  | @edit t u t' f below c pos d rest plans step later ih =>
      by_cases same : x = c
      · subst same
        obtain ⟨rfl, rfl⟩ := held.class_unique step.here.held
        have xIn := step.here.mem
        have notAbove : ∀ y ∈ rest, ¬ u.Below y x := by
          intro y member
          have yIn := step.here.shaped.below_root.mp (outer.1 y (by simp [member]))
          rw [step.below_iff yIn xIn]
          exact (List.pairwise_cons.mp outer.2.2).1 y member
        obtain ⟨held', fields, avoids⟩ := later.leaves (outer.step step) (step.below_root inUnit)
          (List.nodup_cons.mp outer.2.1).1 notAbove step.edited.class_
        refine ⟨_, held', rfl, fun name v field before => avoids name ?_⟩
        rcases step.edited.fieldVar_class step.here step.fits ((fields name v).mp field) with
          ⟨old, field', renamed⟩ | ⟨i, g, place, rfl, _⟩
        · rcases newName_cases step.fits v old with ⟨g, inPlan, isRename, _, given⟩ | ⟨_, kept⟩
          · rw [renamed, given]
            exact step.avoids_new inPlan (by simp [isRename])
          · rw [renamed, kept] at before
            exact absurd field' before
        · obtain ⟨inPlan, isInsert⟩ := mem_of_inserted place
          exact step.avoids_new inPlan (by simp [isInsert])
      · have xIn := step.here.shaped.below_root.mp inUnit
        obtain ⟨dx', held', full, avoids⟩ := ih (outer.step step) (step.below_root inUnit)
          (step.edited.class_other step.here step.fits held same)
        refine ⟨dx', held', full, fun name v field before => avoids name v field ?_⟩
        rwa [step.edited.fieldVar_other step.here step.fits xIn held same]

/-- A run on a unit succeeds.  A field that it brought into a class or gave another name to has a
name that no reference out of the class has: a reference by simple name to a field of neither the
class nor a class nested in it. -/
theorem constants_capture_no_outer_reference {codec : Codec} {bytes : List UInt8}
    {doc : Document} (accepted : Document.read codec bytes = .ok doc) {t : Tree}
    (member : t ∈ doc.trees) (settings : Settings) :
    ∃ r, runUnit settings t = .ok r ∧
      ∀ c pos d, t.Below t.root c → t.Holds c ⟨pos, .classDecl d⟩ →
        ∃ d', r.tree.Holds c ⟨pos, .classDecl d'⟩ ∧ d'.fqn = d.fqn ∧
          ∀ name v, FieldVar r.tree d'.members name v → ¬ FieldVar t d.members name v →
            ∀ id other, ReachesOut r.tree c id other → other ≠ name := by
  by_cases absent : t.root = 0
  · refine ⟨_, runUnit_of_no_root settings absent, fun c pos d inUnit held => ?_⟩
    exact absurd absent (inUnit.ne_zero held)
  have conforms := conforms_of_read accepted member absent
  obtain ⟨r, run, ⟨_, rfl⟩ | ⟨all, _, listed, course⟩⟩ := runUnit_course settings conforms
  · exact ⟨_, run, fun c pos d _ held =>
      ⟨d, held, rfl, fun _ _ field before => absurd field before⟩⟩
  · exact ⟨r, run, fun c pos d inUnit held =>
      course.avoids (outerFirst_classes conforms listed) inUnit held⟩

/-- A class with a constant `go`, and a nested class that reads it by its simple name and has the
literal `"go"` twice. -/
def borrowingUnit : Tree where
  root := 18
  nodes := #[
    some { form := .literal { value := "on", type := "String" } },
    some { form := .namedVar "go" 1 },
    some { form := .varDecl { mods := .constant, type := "String", vars := [2] } },
    some { form := .literal { value := "on", type := "String" } },
    some { form := .literal { value := "on", type := "String" } },
    some { form := .binary "+" 4 5 "" },
    some { form := .namedVar "x" 6 },
    some { form := .varDecl { mods := .ofList [.final], type := "String", vars := [7] } },
    some { form := .ident "go" "String" (some { owner := "A", name := "go" }) },
    some { form := .literal { value := "go", type := "String" } },
    some { form := .binary "+" 9 10 "" },
    some { form := .literal { value := "go", type := "String" } },
    some { form := .binary "+" 11 12 "" },
    some { form := .namedVar "y" 13 },
    some { form := .varDecl { mods := .ofList [.final], type := "String", vars := [14] } },
    some { form := .classDecl { name := "B", fqn := "A.B", members := [15] } },
    some { form := .classDecl { name := "A", fqn := "A", members := [3, 8, 16] } },
    some { form := .unit { name := "A.java", classes := [17] } }]

/-- The unit after the run: the constant of the outer class is `GO`, so that of the nested class is
`GO_1`. -/
def borrowedUnit : Tree where
  root := 18
  nodes :=
    let go : FieldSymbol := { owner := "A", name := "GO", mods := .constant, type := "String" }
    let go₁ : FieldSymbol :=
      { owner := "A.B", name := "GO_1", mods := .constant, type := "String" }
    #[some { form := .literal { value := "on", type := "String" } },
    some { form := .namedVar "GO" 1 },
    some { form := .varDecl { mods := .constant, type := "String", vars := [2] } },
    some { form := .ident "GO" "String" (some go) },
    some { form := .ident "GO" "String" (some go) },
    some { form := .binary "+" 4 5 "" },
    some { form := .namedVar "x" 6 },
    some { form := .varDecl { mods := .ofList [.final], type := "String", vars := [7] } },
    some { form := .ident "GO" "String" (some { owner := "A", name := "GO" }) },
    some { form := .ident "GO_1" "String" (some go₁) },
    some { form := .binary "+" 9 10 "" },
    some { form := .ident "GO_1" "String" (some go₁) },
    some { form := .binary "+" 11 12 "" },
    some { form := .namedVar "y" 13 },
    some { form := .varDecl { mods := .ofList [.final], type := "String", vars := [14] } },
    some { form := .classDecl { name := "B", fqn := "A.B", members := [21, 15] } },
    some { form := .classDecl { name := "A", fqn := "A", members := [3, 8, 16] } },
    some { form := .unit { name := "A.java", classes := [17] } },
    some { form := .literal { value := "go", type := "String" } },
    some { form := .namedVar "GO_1" 19 },
    some { form := .varDecl { mods := .constant, type := "String", vars := [20] } }]

theorem borrowedUnit_reachesOut : ReachesOut borrowedUnit 16 9 "GO" := by
  have declaration : borrowedUnit.Below 16 15 := .step .refl ⟨_, rfl, by decide⟩
  have variable_ : borrowedUnit.Below 16 14 := .step declaration ⟨_, rfl, by decide⟩
  have sum : borrowedUnit.Below 16 13 := .step variable_ ⟨_, rfl, by decide⟩
  have first : borrowedUnit.Below 16 11 := .step sum ⟨_, rfl, by decide⟩
  refine ⟨.step first ⟨_, rfl, by decide⟩, {}, "String", _, rfl, ?_⟩
  intro x pos d lower held
  have member := mem_of_below [16, 21, 20, 19, 15, 14, 13, 11, 9, 10, 12] (by decide)
    (by decide +kernel) lower
  have check : ∀ x ∈ [16, 21, 20, 19, 15, 14, 13, 11, 9, 10, 12],
      ∀ found ∈ (borrowedUnit.classAt? x).toOption.join, found.2.fqn ≠ "A" := by decide +kernel
  exact check x member (pos, d) (by rw [held.classAt?_eq]; rfl)

/-- The reference to the constant of the outer class and the constant of the nested class have
different names. -/
theorem borrowingUnit_constant_apart :
    ∃ r, runUnit {} borrowingUnit = .ok r ∧ ReachesOut r.tree 16 9 "GO" ∧
      FieldVar r.tree [21, 15] "GO_1" 20 ∧ (("GO" : Text) ≠ "GO_1") := by
  have accepted := read_writtenUnit (t := borrowingUnit) (by decide +kernel)
  obtain ⟨r, run, apart⟩ := constants_capture_no_outer_reference accepted (t := borrowingUnit)
    (by simp) {}
  have after : r.tree = borrowedUnit := by
    have result : (runUnit {} borrowingUnit).toOption.map UnitRun.tree = some borrowedUnit := by
      decide +kernel
    simpa [run, Except.toOption] using result
  have outer : borrowingUnit.Below borrowingUnit.root 17 := .step .refl ⟨_, rfl, by decide⟩
  obtain ⟨d', held', _, names⟩ := apart 16 {} _ (.step outer ⟨_, rfl, by decide⟩) rfl
  rw [after] at held' names
  obtain ⟨_, rfl⟩ := Tree.Holds.class_unique held' rfl
  have field : FieldVar borrowedUnit [21, 15] "GO_1" 20 :=
    ⟨21, by decide, {}, _, rfl, by decide, {}, 19, rfl⟩
  have isNew : ¬ FieldVar borrowingUnit [15] "GO_1" 20 := by
    rintro ⟨_, _, _, _, _, _, _, _, held⟩
    exact absurd held.le_size (by decide)
  exact ⟨r, run, after ▸ borrowedUnit_reachesOut, after ▸ field,
    names "GO_1" 20 field isNew 9 "GO" borrowedUnit_reachesOut⟩

end LiteralHoist.Consolidate
