import LiteralHoist.Proofs.Consolidate.Course
import LiteralHoist.Proofs.Document.Decoded

/-!
# Replaced literals

A literal that a run replaces becomes a reference to a constant of its class with the value of the
literal.  Later steps of the run and later runs with any settings may rename the constant and edit
other classes, but the reference goes on naming the constant, and the constant keeps its value.

The invariant is that a literal either still stands or is substituted; every step of every run
preserves it.
-/

set_option autoImplicit false

namespace LiteralHoist.Consolidate

open LiteralHoist.Source LiteralHoist.Document

/-- A reference stands for a value: it names, by its own name, the one field of that name in the
innermost class around it, which is the only class of its full name, and the field is a constant
with the value. -/
structure StandsFor (t : Tree) (id : NodeId) (value : Text) (c : NodeId) (d : ClassDecl)
    (field : FieldSymbol) (v : NodeId) : Prop where
  inUnit : t.Below t.root c
  class_ : ∃ pos, t.Holds c ⟨pos, .classDecl d⟩
  innermost : t.OwnedBy c id
  only : ∀ {x : NodeId} {xPos : Position} {dx : ClassDecl}, t.Below t.root x →
    t.Holds x ⟨xPos, .classDecl dx⟩ → dx.fqn = d.fqn → x = c
  reference : ∃ pos type, t.Holds id ⟨pos, .ident field.name type (some field)⟩
  owner : field.owner = d.fqn
  names : NamesField t d.members field.name v
  constant : ∃ member init vd lit, IsConstant t d ⟨field.name, value, v⟩ member init vd lit

def Substituted (t : Tree) (id : NodeId) (value : Text) : Prop :=
  ∃ c d field v, StandsFor t id value c d field v

section Step
variable {settings : Settings} {t t' : Tree} {f below : Forest} {c : NodeId} {pos : Position}
  {d : ClassDecl}

theorem ClassStep.only (step : ClassStep settings t t' f c below pos d) {y : NodeId} {fqn : Text}
    (only : ∀ {x : NodeId} {xPos : Position} {dx : ClassDecl}, t.Below t.root x →
      t.Holds x ⟨xPos, .classDecl dx⟩ → dx.fqn = fqn → x = y)
    {x : NodeId} {xPos : Position} {dx : ClassDecl} (inUnit : t'.Below t'.root x)
    (held : t'.Holds x ⟨xPos, .classDecl dx⟩) (same : dx.fqn = fqn) : x = y := by
  obtain ⟨dx₀, inUnit₀, held₀, name⟩ := step.class_before inUnit held
  exact only inUnit₀ held₀ (name.symm.trans same)

/-- A step leaves a literal alone or substitutes it. -/
theorem ClassStep.literal (step : ClassStep settings t t' f c below pos d)
    (distinct : DistinctNames t) {id : NodeId} {litPos : Position} {lit : Literal}
    (held : t.Holds id ⟨litPos, .literal lit⟩) :
    t'.Holds id ⟨litPos, .literal lit⟩ ∨ Substituted t' id lit.value := by
  by_cases site : ∃ g ∈ (classPlan t settings c below d).groups, id ∈ g.sites
  · obtain ⟨g, inPlan, isSite⟩ := site
    obtain ⟨_, lit', held', _, value_eq⟩ := step.fits.literal g inPlan id isSite
    obtain ⟨_, rfl⟩ := held.literal_unique held'
    obtain ⟨field, reference, owner, name⟩ :=
      step.edited.site g inPlan id isSite litPos lit held
    obtain ⟨v, member, init, vd, initial, names, constant⟩ :=
      step.edited.group_names step.here step.fits inPlan
    have inUnit := step.here.shaped.below_root.mpr step.here.mem
    rw [value_eq]
    exact .inr ⟨c, _, field, v, {
      inUnit := step.below_root inUnit
      class_ := ⟨pos, step.edited.class_⟩
      innermost := step.owned (step.fits.owned g inPlan id isSite)
      only := step.only fun inUnit' held' same' =>
        distinct inUnit' inUnit held' step.here.held (same' ▸ step.resolved) same'
      reference := ⟨litPos, lit.type, name ▸ reference⟩
      owner := owner
      names := name ▸ names
      constant := ⟨member, init, vd, initial, name ▸ constant⟩ }⟩
  · refine .inl (step.edited.literal_kept step.here step.fits held fun g inPlan isSite => ?_)
    exact site ⟨g, inPlan, isSite⟩

/-- A reference in the class of the step goes on standing for its value. -/
theorem StandsFor.same_class (step : ClassStep settings t t' f c below pos d) {id : NodeId}
    {value : Text} {field : FieldSymbol} {v : NodeId} (stands : StandsFor t id value c d field v) :
    Substituted t' id value := by
  obtain ⟨refPos, type, held⟩ := stands.reference
  obtain ⟨member, init, vd, lit, constant⟩ := stands.constant
  have inPart : id ∈ (Forest.cons c below .nil).ids :=
    (step.here.occurs.below_iff step.here.shaped.follows).mp stands.innermost.isBelow
  have names' := step.edited.namesField step.here step.fits stands.names
  have constant' := step.edited.isConstant_class step.here step.fits constant
  obtain ⟨field', reference', owner', name'⟩ : ∃ field' : FieldSymbol,
      t'.Holds id ⟨refPos, .ident field'.name type (some field')⟩ ∧
        field'.owner = field.owner ∧ newName t c below d.fqn
          (classPlan t settings c below d).groups v field.name = field'.name := by
    rcases step.edited.reference_follows step.here step.fits held rfl inPart stands.owner
      stands.names with ⟨same, kept⟩ | renamed
    · exact ⟨field, kept, rfl, same⟩
    · exact ⟨{ field with name := _ }, renamed, rfl, rfl⟩
  rw [name'] at names' constant'
  exact ⟨c, _, field', v, {
    inUnit := step.below_root stands.inUnit
    class_ := ⟨pos, step.edited.class_⟩
    innermost := step.owned stands.innermost
    only := step.only stands.only
    reference := ⟨refPos, type, reference'⟩
    owner := owner'.trans stands.owner
    names := names'
    constant := ⟨member, init, vd, lit, constant'⟩ }⟩

/-- A reference in another class is not touched. -/
theorem StandsFor.other_class (step : ClassStep settings t t' f c below pos d) {id : NodeId}
    {value : Text} {x : NodeId} {dx : ClassDecl} {field : FieldSymbol} {v : NodeId}
    (stands : StandsFor t id value x dx field v) (other : x ≠ c) : Substituted t' id value := by
  obtain ⟨refPos, type, held⟩ := stands.reference
  obtain ⟨xPos, xHeld⟩ := stands.class_
  obtain ⟨member, init, vd, lit, constant⟩ := stands.constant
  have inside := step.here.shaped.below_root.mp stands.inUnit
  have foreign : field.owner ≠ d.fqn := by
    intro same
    have inUnit := step.here.shaped.below_root.mpr step.here.mem
    refine other (stands.only inUnit step.here.held ?_).symm
    rw [← same, stands.owner]
  exact ⟨x, dx, field, v, {
    inUnit := step.below_root stands.inUnit
    class_ := ⟨xPos, step.edited.class_other step.here step.fits xHeld other⟩
    innermost := step.owned stands.innermost
    only := step.only stands.only
    reference :=
      ⟨refPos, type, step.edited.reference_stays step.here step.fits held rfl (.inr foreign)⟩
    owner := stands.owner
    names := (step.edited.namesField_other step.here step.fits inside xHeld other).mpr stands.names
    constant := ⟨member, init, vd, lit,
      step.edited.isConstant_other step.here step.fits inside xHeld other constant⟩ }⟩

theorem ClassStep.substituted (step : ClassStep settings t t' f c below pos d) {id : NodeId}
    {value : Text} (substituted : Substituted t id value) : Substituted t' id value := by
  obtain ⟨x, dx, field, v, stands⟩ := substituted
  by_cases same : x = c
  · subst same
    obtain ⟨_, held⟩ := stands.class_
    obtain ⟨_, rfl⟩ := held.class_unique step.here.held
    exact stands.same_class step
  · exact stands.other_class step same

structure Accounts (start t : Tree) : Prop where
  distinct : DistinctNames t
  literal : ∀ {id : NodeId} {pos : Position} {lit : Literal},
    start.Holds id ⟨pos, .literal lit⟩ →
      t.Holds id ⟨pos, .literal lit⟩ ∨ Substituted t id lit.value

theorem ClassStep.accounts (step : ClassStep settings t t' f c below pos d) {start : Tree}
    (accounts : Accounts start t) : Accounts start t' where
  distinct := step.distinctNames accounts.distinct
  literal := by
    intro id litPos lit held
    rcases accounts.literal held with stands | substituted
    · exact step.literal accounts.distinct stands
    · exact .inr (step.substituted substituted)

end Step

/-- Every literal that a run replaces is, after any number of later runs, a reference that names a
constant of its class with the value of the literal. -/
theorem replaced_literals_substituted {codec : Codec} {bytes : List UInt8} {doc : Document}
    (accepted : Document.read codec bytes = .ok doc) {t : Tree} (member : t ∈ doc.trees)
    (present : t.root ≠ 0) (distinct : DistinctNames t) (before : List Settings)
    (settings : Settings) (after : List Settings) :
    ∃ start r final, runSequence before t = .ok start ∧ runUnit settings start = .ok r ∧
      runSequence after r.tree = .ok final ∧
      ∀ id pos lit, start.Holds id ⟨pos, .literal lit⟩ →
        ¬ r.tree.Holds id ⟨pos, .literal lit⟩ → Substituted final id lit.value := by
  have conforms := conforms_of_read accepted member present
  obtain ⟨start, first, conformsStart, distinctStart⟩ :=
    runSequence_preserves DistinctNames ClassStep.distinctNames before conforms distinct
  obtain ⟨r, run, conformsRun, accounts⟩ := runUnit_preserves settings (Accounts start)
    (fun step accounts => step.accounts accounts) conformsStart ⟨distinctStart, .inl⟩
  obtain ⟨final, last, _, substituted⟩ := runSequence_preserves
    (fun u => ∀ id value, Substituted r.tree id value → Substituted u id value)
    (fun step kept id value before => step.substituted (kept id value before)) after conformsRun
    fun _ _ here => here
  refine ⟨start, r, final, first, run, last, fun id pos lit held gone => ?_⟩
  rcases accounts.literal held with stands | replaced
  · exact absurd stands gone
  · exact substituted id lit.value replaced

/-- A class with a constant `go` of the value `"on"`, and with a final field that has the value
twice in its initial value. -/
def renamingUnit : Tree where
  root := 10
  nodes := #[
    some { form := .literal { value := "on", type := "String" } },
    some { form := .namedVar "go" 1 },
    some { form := .varDecl { mods := .constant, type := "String", vars := [2] } },
    some { form := .literal { value := "on", type := "String" } },
    some { form := .literal { value := "on", type := "String" } },
    some { form := .binary "+" 4 5 "" },
    some { form := .namedVar "x" 6 },
    some { form := .varDecl { mods := .ofList [.final], type := "String", vars := [7] } },
    some { form := .classDecl { name := "A", fqn := "A", members := [3, 8] } },
    some { form := .unit { name := "A.java", classes := [9] } }]

theorem renamingUnit_read : Document.read .messagePack (writtenUnit renamingUnit) =
    .ok ⟨Version.current, [renamingUnit]⟩ :=
  read_writtenUnit (by decide +kernel)

theorem renamingUnit_literal_substituted :
    DistinctNames renamingUnit ∧ ∃ final,
      runSequence [{}, { minOccurrences := 3 }] renamingUnit = .ok final ∧
      Substituted final 4 "on" := by
  have distinct : DistinctNames renamingUnit := distinctNames_of_check (by decide +kernel)
  obtain ⟨start, r, final, first, run, last, substituted⟩ :=
    replaced_literals_substituted renamingUnit_read (by simp) (by decide) distinct [] {}
      [{ minOccurrences := 3 }]
  obtain rfl : renamingUnit = start := Except.ok.inj first
  have literal : renamingUnit.Holds 4 ⟨{}, .literal { value := "on", type := "String" }⟩ := rfl
  have replaced : (runUnit {} renamingUnit).toOption.map (fun r => r.tree.peek 4) ≠
      some (some ⟨{}, .literal { value := "on", type := "String" }⟩) := by decide +kernel
  refine ⟨distinct, final, ?_, substituted 4 _ _ literal fun held => replaced ?_⟩
  · rw [runSequence, List.foldlM_cons, run]
    exact last
  · rw [run, Except.toOption, Option.map_some, held.peek_eq]

end LiteralHoist.Consolidate
