import LiteralHoist.Proofs.Consolidate.Course
import LiteralHoist.Proofs.Document.Decoded

/-!
# References to fields after a run

Through every run a field of a class stays a field of that class, at its own node, and is named by
its name, which may be new.  A reference to the field from inside the class, nested classes
included, has the name of the field after the run.  A reference from elsewhere in the unit keeps
the name that it had, so it goes on naming the field unless the run renames the field.
-/

set_option autoImplicit false

namespace LiteralHoist.Consolidate

open LiteralHoist.Source LiteralHoist.Document

def DistinctFields (t : Tree) : Prop :=
  ∀ {c : NodeId} {pos : Position} {d : ClassDecl} {name : Text} {v v' : NodeId},
    t.Below t.root c → t.Holds c ⟨pos, .classDecl d⟩ → FieldVar t d.members name v →
    FieldVar t d.members name v' → v' = v

def Refers (t : Tree) (id : NodeId) (field : FieldSymbol) : Prop :=
  ∃ n, t.Holds id n ∧ referenceOf n.form = some field

def HasField (t : Tree) (c : NodeId) (fqn name : Text) (x : NodeId) : Prop :=
  t.Below t.root c ∧ ∃ pos d, t.Holds c ⟨pos, .classDecl d⟩ ∧ d.fqn = fqn ∧
    NamesField t d.members name x

/-- What became of a reference to a field of a class: it names the field if it is in the class, and
is as it was if not. -/
inductive Kept (t : Tree) (id c x : NodeId) (field : FieldSymbol) : Prop where
  | follows {field' : FieldSymbol} (inside : t.Below c id) (refers : Refers t id field')
      (owner : field'.owner = field.owner) (names : HasField t c field.owner field'.name x) :
      Kept t id c x field
  | stays {name : Text} (outside : ¬ t.Below c id) (refers : Refers t id field)
      (names : HasField t c field.owner name x) : Kept t id c x field

section Step
variable {settings : Settings} {t t' : Tree} {f below : Forest} {c : NodeId} {pos : Position}
  {d : ClassDecl}

theorem ClassStep.hasField_class (step : ClassStep settings t t' f c below pos d) {name : Text}
    {x : NodeId} (names : NamesField t d.members name x) :
    HasField t' c d.fqn
      (newName t c below d.fqn (classPlan t settings c below d).groups x name) x := by
  have inUnit := step.here.shaped.below_root.mpr step.here.mem
  exact ⟨step.below_root inUnit, pos, _, step.edited.class_, rfl,
    step.edited.namesField step.here step.fits names⟩

theorem ClassStep.hasField_other (step : ClassStep settings t t' f c below pos d) {y : NodeId}
    {fqn name : Text} {x : NodeId} (other : y ≠ c) (has : HasField t y fqn name x) :
    HasField t' y fqn name x := by
  obtain ⟨inUnit, yPos, dy, held, full, names⟩ := has
  have inside := step.here.shaped.below_root.mp inUnit
  exact ⟨step.below_root inUnit, yPos, dy,
    step.edited.class_other step.here step.fits held other, full,
    (step.edited.namesField_other step.here step.fits inside held other).mpr names⟩

theorem ClassStep.namesField_of_has (step : ClassStep settings t t' f c below pos d)
    {fqn name : Text} {x : NodeId} (has : HasField t c fqn name x) :
    d.fqn = fqn ∧ NamesField t d.members name x := by
  obtain ⟨_, _, _, held, full, names⟩ := has
  obtain ⟨_, rfl⟩ := held.class_unique step.here.held
  exact ⟨full, names⟩

theorem ClassStep.hasField (step : ClassStep settings t t' f c below pos d) {y : NodeId}
    {fqn name : Text} {x : NodeId} (has : HasField t y fqn name x) :
    ∃ name', HasField t' y fqn name' x := by
  by_cases same : y = c
  · subst same
    obtain ⟨rfl, names⟩ := step.namesField_of_has has
    exact ⟨_, step.hasField_class names⟩
  · exact ⟨name, step.hasField_other same has⟩

theorem ClassStep.refers_stays (step : ClassStep settings t t' f c below pos d) {id : NodeId}
    {field : FieldSymbol} (refers : Refers t id field)
    (elsewhere : ¬ t.Below c id ∨ field.owner ≠ d.fqn) : Refers t' id field := by
  obtain ⟨n, held, isReference⟩ := refers
  refine ⟨n, step.edited.reference_stays step.here step.fits held isReference ?_, isReference⟩
  rwa [← step.here.occurs.below_iff step.here.shaped.follows]

theorem ClassStep.refers_follows (step : ClassStep settings t t' f c below pos d) {id : NodeId}
    {field : FieldSymbol} (refers : Refers t id field) (inside : t.Below c id)
    (owner : field.owner = d.fqn) {x : NodeId} (names : NamesField t d.members field.name x) :
    ∃ field', Refers t' id field' ∧ field'.owner = field.owner ∧ field'.name =
      newName t c below d.fqn (classPlan t settings c below d).groups x field.name := by
  obtain ⟨n, held, isReference⟩ := refers
  have inPart := (step.here.occurs.below_iff step.here.shaped.follows).mp inside
  rcases step.edited.reference_follows step.here step.fits held isReference inPart owner names with
    ⟨same, kept⟩ | renamed
  · exact ⟨field, ⟨n, kept, isReference⟩, rfl, same.symm⟩
  · have isReference' := referenceOf_renamedForm
      (newName t c below d.fqn (classPlan t settings c below d).groups x field.name) n.form
    rw [isReference, Option.map_some] at isReference'
    exact ⟨_, ⟨_, renamed, isReference'⟩, rfl, rfl⟩

theorem ClassStep.foreign (step : ClassStep settings t t' f c below pos d)
    (distinct : DistinctNames t) {y : NodeId} {fqn name : Text} {x : NodeId} (other : y ≠ c)
    (has : HasField t y fqn name x) : fqn ≠ d.fqn := by
  obtain ⟨inUnit, _, _, held, rfl, _⟩ := has
  intro same
  exact other (distinct inUnit (step.here.shaped.below_root.mpr step.here.mem) held step.here.held
    (same ▸ step.resolved) same)

/-- What one step does to a reference: in its own class the reference takes the new name of the
field, and the steps of all other classes leave it alone. -/
theorem ClassStep.kept (step : ClassStep settings t t' f c below pos d)
    (distinct : DistinctNames t) {id y x : NodeId} {field : FieldSymbol}
    (inUnit : t.Below t.root id) (kept : Kept t id y x field) : Kept t' id y x field := by
  have member := step.here.shaped.below_root.mp inUnit
  cases kept with
  | @follows field₁ inside refers owner names =>
      by_cases same : y = c
      · subst same
        obtain ⟨full, names₁⟩ := step.namesField_of_has names
        obtain ⟨field', refers', owner', name'⟩ :=
          step.refers_follows refers inside (owner.trans full.symm) names₁
        refine .follows (step.stays_below inside) refers' (owner'.trans owner) ?_
        rw [name', ← full]
        exact step.hasField_class names₁
      · have foreign := step.foreign distinct same names
        exact .follows (step.stays_below inside)
          (step.refers_stays refers (.inr (owner ▸ foreign))) owner
          (step.hasField_other same names)
  | stays outside refers names =>
      have yIn := step.here.shaped.below_root.mp names.1
      obtain ⟨name', names'⟩ := step.hasField names
      refine .stays (fun inside => outside ((step.below_iff yIn member).mp inside)) ?_ names'
      by_cases same : y = c
      · exact step.refers_stays refers (.inl (same ▸ outside))
      · exact step.refers_stays refers (.inr (step.foreign distinct same names))

/-- The references of an earlier tree to fields are kept, in the same classes. -/
structure Traces (start t : Tree) : Prop where
  distinct : DistinctNames t
  inUnit : ∀ {id : NodeId}, start.Below start.root id → t.Below t.root id
  within : ∀ {y id : NodeId}, start.Below start.root y → start.Below start.root id →
    (t.Below y id ↔ start.Below y id)
  reference : ∀ {id y x : NodeId} {field : FieldSymbol}, start.Below start.root id →
    Refers start id field → HasField start y field.owner field.name x → Kept t id y x field

theorem Traces.refl (distinct : DistinctNames t) : Traces t t where
  distinct := distinct
  inUnit := id
  within _ _ := .rfl
  reference := by
    intro id y x field _ refers names
    by_cases inside : t.Below y id
    · exact .follows inside refers rfl names
    · exact .stays inside refers names

theorem ClassStep.traces (step : ClassStep settings t t' f c below pos d) {start : Tree}
    (traces : Traces start t) : Traces start t' where
  distinct := step.distinctNames traces.distinct
  inUnit inUnit := step.below_root (traces.inUnit inUnit)
  within := by
    intro y id yIn idIn
    rw [← traces.within yIn idIn]
    exact step.below_iff (step.here.shaped.below_root.mp (traces.inUnit yIn))
      (step.here.shaped.below_root.mp (traces.inUnit idIn))
  reference idIn refers names :=
    step.kept traces.distinct (traces.inUnit idIn) (traces.reference idIn refers names)

end Step

/-- After a run, a reference in the class of a field that it named names the same field under its
new name, and any other reference to the field keeps the name that it had. -/
theorem references_follow_fields {codec : Codec} {bytes : List UInt8} {doc : Document}
    (accepted : Document.read codec bytes = .ok doc) {t : Tree} (member : t ∈ doc.trees)
    (distinct : DistinctNames t) (fields : DistinctFields t) (settings : Settings) :
    ∃ r, runUnit settings t = .ok r ∧ DistinctNames r.tree ∧
      ∀ id field c pos d x, t.Below t.root id → Refers t id field → t.Below t.root c →
        t.Holds c ⟨pos, .classDecl d⟩ → d.fqn = field.owner → FieldVar t d.members field.name x →
        (t.Below c id → ∃ field', Refers r.tree id field' ∧ field'.owner = field.owner ∧
          HasField r.tree c field.owner field'.name x) ∧
        (¬ t.Below c id → Refers r.tree id field ∧
          ∃ name, HasField r.tree c field.owner name x) := by
  obtain ⟨r, run, traces⟩ : ∃ r, runUnit settings t = .ok r ∧ Traces t r.tree := by
    by_cases absent : t.root = 0
    · exact ⟨_, runUnit_of_no_root settings absent, Traces.refl distinct⟩
    · have conforms := conforms_of_read accepted member absent
      obtain ⟨r, run, _, traces⟩ := runUnit_preserves settings (Traces t)
        (fun step traces => step.traces traces) conforms (Traces.refl distinct)
      exact ⟨r, run, traces⟩
  refine ⟨r, run, traces.distinct, fun id field c pos d x idIn refers cIn held full isField => ?_⟩
  have names : HasField t c field.owner field.name x :=
    ⟨cIn, pos, d, held, full, isField, fun v' other => fields cIn held isField other⟩
  have within := traces.within cIn idIn
  cases traces.reference idIn refers names with
  | follows inside refers' owner names' =>
      exact ⟨fun _ => ⟨_, refers', owner, names'⟩,
        fun outside => absurd (within.mp inside) outside⟩
  | stays outside refers' names' =>
      exact ⟨fun inside => absurd (within.mpr inside) outside, fun _ => ⟨refers', _, names'⟩⟩

def variableAt (t : Tree) (id : NodeId) : Option Text :=
  match t.peek id with
  | some ⟨_, .namedVar name _⟩ => some name
  | _ => none

def referenceAt (t : Tree) (id : NodeId) : Option FieldSymbol :=
  (t.peek id).bind fun n => referenceOf n.form

theorem FieldVar.variableAt_eq {t : Tree} {members : List NodeId} {name : Text} {v : NodeId}
    (field : FieldVar t members name v) : variableAt t v = some name := by
  obtain ⟨_, _, _, _, _, _, _, _, held⟩ := field
  simp [variableAt, held.peek_eq]

theorem HasField.variableAt_eq {t : Tree} {c x : NodeId} {fqn name : Text}
    (has : HasField t c fqn name x) : variableAt t x = some name := by
  obtain ⟨_, _, _, _, _, field, _⟩ := has
  exact field.variableAt_eq

theorem Refers.referenceAt_eq {t : Tree} {id : NodeId} {field : FieldSymbol}
    (refers : Refers t id field) : referenceAt t id = some field := by
  obtain ⟨n, held, isReference⟩ := refers
  rw [referenceAt, held.peek_eq, Option.bind_some, isReference]

theorem distinctFields_of_check {t : Tree}
    (check : ∀ x ∈ List.range (t.size + 1), ∀ y ∈ List.range (t.size + 1),
      variableAt t x ≠ none → variableAt t x = variableAt t y → y = x) : DistinctFields t := by
  intro c pos d name v v' _ _ first second
  have here := first.variableAt_eq
  have there := second.variableAt_eq
  obtain ⟨_, _, _, _, _, _, _, _, held⟩ := first
  obtain ⟨_, _, _, _, _, _, _, _, held'⟩ := second
  refine check v (List.mem_range.mpr (Nat.lt_succ_of_le held.le_size)) v'
    (List.mem_range.mpr (Nat.lt_succ_of_le held'.le_size)) ?_ ?_
  · simp [here]
  · rw [here, there]

def declaredVars (t : Tree) (members : List NodeId) : List NodeId :=
  members.flatMap fun member =>
    match t.peek member with
    | some ⟨_, .varDecl vd⟩ => vd.vars
    | _ => []

theorem FieldVar.mem_declaredVars {t : Tree} {members : List NodeId} {name : Text} {v : NodeId}
    (field : FieldVar t members name v) : v ∈ declaredVars t members := by
  obtain ⟨member, isMember, _, vd, declaration, isVar, _⟩ := field
  exact List.mem_flatMap.mpr ⟨member, isMember, by rwa [declaration.peek_eq]⟩

theorem distinctFieldNames_of_check {t : Tree} {d : ClassDecl}
    (check : ∀ v ∈ declaredVars t d.members, ∀ v' ∈ declaredVars t d.members,
      variableAt t v = variableAt t v' → v' = v) : DistinctFieldNames t d := by
  intro name v v' first second
  refine check v first.mem_declaredVars v' second.mem_declaredVars ?_
  rw [first.variableAt_eq, second.variableAt_eq]

/-- A class with a field that reads the constant `B.go` of a nested class.  The nested class has a
final field with the value of the constant twice, and a field that reads the constant by its simple
name. -/
def nestedUnit : Tree where
  root := 18
  nodes := #[
    some { form := .ident "B" "" none },
    some { form := .fieldAccess 1 "go" "String" (some { owner := "A.B", name := "go" }) },
    some { form := .namedVar "x" 2 },
    some { form := .varDecl { type := "String", vars := [3] } },
    some { form := .literal { value := "on", type := "String" } },
    some { form := .namedVar "go" 5 },
    some { form := .varDecl { mods := .constant, type := "String", vars := [6] } },
    some { form := .literal { value := "on", type := "String" } },
    some { form := .literal { value := "on", type := "String" } },
    some { form := .binary "+" 8 9 "" },
    some { form := .namedVar "y" 10 },
    some { form := .varDecl { mods := .ofList [.final], type := "String", vars := [11] } },
    some { form := .ident "go" "String" (some { owner := "A.B", name := "go" }) },
    some { form := .namedVar "z" 13 },
    some { form := .varDecl { type := "String", vars := [14] } },
    some { form := .classDecl { name := "B", fqn := "A.B", members := [7, 12, 15] } },
    some { form := .classDecl { name := "A", fqn := "A", members := [4, 16] } },
    some { form := .unit { name := "A.java", classes := [17] } }]

theorem nestedUnit_read : Document.read .messagePack (writtenUnit nestedUnit) =
    .ok ⟨Version.current, [nestedUnit]⟩ :=
  read_writtenUnit (by decide +kernel)

theorem nestedUnit_distinctNames : DistinctNames nestedUnit :=
  distinctNames_of_check (by decide +kernel)

theorem nestedUnit_distinctFields : DistinctFields nestedUnit :=
  distinctFields_of_check (by decide +kernel)

theorem nestedUnit_class : nestedUnit.Below nestedUnit.root 16 := by
  have outer : nestedUnit.Below nestedUnit.root 17 := .step .refl ⟨_, rfl, by decide⟩
  exact .step outer ⟨_, rfl, by decide⟩

theorem nestedUnit_field : FieldVar nestedUnit [7, 12, 15] "go" 6 :=
  ⟨7, by decide, {}, _, rfl, by decide, {}, 5, rfl⟩

theorem nestedUnit_run : ∃ r, runUnit {} nestedUnit = .ok r ∧ variableAt r.tree 6 = some "GO" ∧
    referenceAt r.tree 2 = some { owner := "A.B", name := "go" } := by
  have result : (runUnit {} nestedUnit).toOption.any (fun r => variableAt r.tree 6 = some "GO" ∧
      referenceAt r.tree 2 = some { owner := "A.B", name := "go" }) = true := by decide +kernel
  cases run : runUnit {} nestedUnit with
  | error _ => simp [run, Except.toOption] at result
  | ok r => exact ⟨r, rfl, by simpa [run, Except.toOption] using result⟩

/-- The simple name follows the constant. -/
theorem nestedUnit_reference_follows :
    ∃ r field', runUnit {} nestedUnit = .ok r ∧ Refers r.tree 13 field' ∧ field'.name = "GO" ∧
      field'.owner = "A.B" ∧ HasField r.tree 16 "A.B" field'.name 6 := by
  obtain ⟨r, run, _, kept⟩ := references_follow_fields nestedUnit_read (by simp)
    nestedUnit_distinctNames nestedUnit_distinctFields {}
  have declaration : nestedUnit.Below 16 15 := .step .refl ⟨_, rfl, by decide⟩
  have variable_ : nestedUnit.Below 16 14 := .step declaration ⟨_, rfl, by decide⟩
  have inside : nestedUnit.Below 16 13 := .step variable_ ⟨_, rfl, by decide⟩
  have inUnit : nestedUnit.Below nestedUnit.root 13 := nestedUnit_class.trans inside
  obtain ⟨follows, _⟩ := kept 13 { owner := "A.B", name := "go" } 16 {} _ 6 inUnit ⟨_, rfl, rfl⟩
    nestedUnit_class rfl rfl nestedUnit_field
  obtain ⟨field', refers, owner, has⟩ := follows inside
  obtain ⟨r', run', new, _⟩ := nestedUnit_run
  obtain rfl := Except.ok.inj (run.symm.trans run')
  rw [has.variableAt_eq] at new
  exact ⟨r, field', run, refers, Option.some.inj new, owner, has⟩

/-- The access from the outer class keeps the old name of the constant and names no field. -/
theorem nestedUnit_access_left_behind :
    Document.read .messagePack (writtenUnit nestedUnit) =
        .ok ⟨Version.current, [nestedUnit]⟩ ∧
      DistinctNames nestedUnit ∧ DistinctFields nestedUnit ∧
      nestedUnit.Below nestedUnit.root 2 ∧
      Refers nestedUnit 2 { owner := "A.B", name := "go" } ∧
      HasField nestedUnit 16 "A.B" "go" 6 ∧
      ∃ r, runUnit {} nestedUnit = .ok r ∧
        ∀ field', Refers r.tree 2 field' → ¬ HasField r.tree 16 field'.owner field'.name 6 := by
  have outer : nestedUnit.Below nestedUnit.root 17 := .step .refl ⟨_, rfl, by decide⟩
  have declaration : nestedUnit.Below nestedUnit.root 4 := .step outer ⟨_, rfl, by decide⟩
  have variable_ : nestedUnit.Below nestedUnit.root 3 := .step declaration ⟨_, rfl, by decide⟩
  refine ⟨nestedUnit_read, nestedUnit_distinctNames, nestedUnit_distinctFields,
    .step variable_ ⟨_, rfl, by decide⟩, ⟨_, rfl, rfl⟩,
    ⟨nestedUnit_class, {}, _, rfl, rfl, nestedUnit_field, fun v' other => ?_⟩, ?_⟩
  · exact nestedUnit_distinctFields nestedUnit_class rfl nestedUnit_field other
  · obtain ⟨r, run, new, kept⟩ := nestedUnit_run
    refine ⟨r, run, fun field' refers has => ?_⟩
    rw [refers.referenceAt_eq] at kept
    rw [has.variableAt_eq, Option.some.inj kept] at new
    exact absurd new (by decide)

end LiteralHoist.Consolidate
