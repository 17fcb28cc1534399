import LiteralHoist.Proofs.Consolidate.Course
import LiteralHoist.Proofs.Document.Decoded

/-!
# Names that a plan commits

After the plan of a class was carried out, the name of each group is that of one variable in the
whole class, parameters, local variables and nested classes included.  The variable is a field of
the class: a new one, or that of the constant that the group reuses or renames.
-/

set_option autoImplicit false

namespace LiteralHoist.Consolidate

open LiteralHoist.Source LiteralHoist.Document

def CarriesName (t : Tree) (c : NodeId) (name : Text) (id : NodeId) : Prop :=
  t.Below c id ∧ ∃ pos init, t.Holds id ⟨pos, .namedVar name init⟩

theorem FieldVar.carriesName {t : Tree} {f below : Forest} {c v : NodeId} {pos : Position}
    {d : ClassDecl} {name : Text} (here : ClassIn t f c below pos d)
    (field : FieldVar t d.members name v) : CarriesName t c name v := by
  refine ⟨(here.occurs.below_iff here.shaped.follows).mpr (field.in_part here), ?_⟩
  obtain ⟨_, _, _, _, _, _, held⟩ := field
  exact held

theorem IsGroupVar.origin {t : Tree} {groups : List Group} {g : Group} {v : Nat}
    (known : g.action = .insert ∨ g.action = .reuse ∨ g.action = .rename)
    (isVar : IsGroupVar t groups g v) :
    g.action = .insert ∧ t.size < v ∨ (g.action = .reuse ∨ g.action = .rename) ∧ v = g.var := by
  rcases isVar with ⟨i, place, rfl⟩ | ⟨old, var⟩
  · exact .inl ⟨(mem_of_inserted place).2, by omega⟩
  · exact .inr ⟨known.resolve_left old, var⟩

/-- A run on a class with a resolved type succeeds.  The names of its groups are different from
each other, and each of them is the name of one variable in the class. -/
theorem committed_names_unique {codec : Codec} {bytes : List UInt8} {doc : Document}
    (accepted : Document.read codec bytes = .ok doc) {t : Tree} (member : t ∈ doc.trees)
    {c : NodeId} (inUnit : t.Below t.root c) {pos : Position} {d : ClassDecl}
    (held : t.Holds c ⟨pos, .classDecl d⟩) (resolved : d.fqn ≠ "") (settings : Settings) :
    ∃ r d', runClass settings t c = .ok (.ok r) ∧ r.tree.Holds c ⟨pos, .classDecl d'⟩ ∧
      (r.plan.groups.map Group.name).Nodup ∧
      ∀ g ∈ r.plan.groups, ∃ v, FieldVar r.tree d'.members g.name v ∧
        (∀ id, CarriesName r.tree c g.name id ↔ id = v) ∧
        (g.action = .insert ∧ t.size < v ∨
          (g.action = .reuse ∨ g.action = .rename) ∧ v = g.var) := by
  obtain ⟨f, shaped⟩ := conforms_of_read accepted member (inUnit.ne_zero held)
  obtain ⟨below, here⟩ := Shaped.exists_classIn shaped (shaped.below_root.mp inUnit) held
  obtain ⟨r, run, plan, step⟩ := runClass_edited settings here resolved
  have after := step.edited.classIn here step.fits
  refine ⟨r, _, run, step.edited.class_, plan ▸ step.fits.names, fun g inPlan => ?_⟩
  rw [plan] at inPlan
  obtain ⟨v, _, _, _, _, isVar, constant⟩ := step.edited.group_constant here step.fits inPlan
  refine ⟨v, constant.fieldVar, fun id => ⟨?_, ?_⟩, isVar.origin (step.fits.known g inPlan)⟩
  · rintro ⟨lower, _, _, variable_⟩
    exact isVar.unique step.fits
      (step.edited.variable_of_group here step.fits inPlan (after.in_part lower) variable_)
  · rintro rfl
    exact constant.fieldVar.carriesName after

/-- A class with the constants `ON` and `go`, and with the values of both and a third value, `"hi"`,
twice each.  A parameter of a method of a nested class is called `HI`. -/
def crossingUnit : Tree where
  root := 28
  nodes := #[
    some { form := .literal { value := "on", type := "String" } },
    some { form := .namedVar "ON" 1 },
    some { form := .varDecl { mods := .constant, type := "String", vars := [2] } },
    some { form := .literal { value := "off", type := "String" } },
    some { form := .namedVar "go" 4 },
    some { form := .varDecl { mods := .constant, type := "String", vars := [5] } },
    some { form := .literal { value := "on", type := "String" } },
    some { form := .literal { value := "on", type := "String" } },
    some { form := .binary "+" 7 8 "" },
    some { form := .namedVar "x" 9 },
    some { form := .varDecl { mods := .ofList [.final], type := "String", vars := [10] } },
    some { form := .literal { value := "off", type := "String" } },
    some { form := .literal { value := "off", type := "String" } },
    some { form := .binary "+" 12 13 "" },
    some { form := .namedVar "y" 14 },
    some { form := .varDecl { mods := .ofList [.final], type := "String", vars := [15] } },
    some { form := .literal { value := "hi", type := "String" } },
    some { form := .literal { value := "hi", type := "String" } },
    some { form := .binary "+" 17 18 "" },
    some { form := .namedVar "z" 19 },
    some { form := .varDecl { mods := .ofList [.final], type := "String", vars := [20] } },
    some { form := .namedVar "HI" 0 },
    some { form := .varDecl { type := "String", vars := [22] } },
    some { form := .block [] },
    some { form := .method { result := "void", name := "run", params := [23], body := 24 } },
    some { form := .classDecl { name := "B", fqn := "A.B", members := [25] } },
    some { form := .classDecl { name := "A", fqn := "A", members := [3, 6, 11, 16, 21, 26] } },
    some { form := .unit { name := "A.java", classes := [27] } }]

theorem crossingUnit_committed_names :
    ∃ r d', runClass {} crossingUnit 27 = .ok (.ok r) ∧
      r.tree.Holds 27 ⟨{}, .classDecl d'⟩ ∧
      r.plan.groups.map (fun g => (g.action, g.name)) =
        ([(.reuse, "ON"), (.rename, "GO"), (.insert, "HI_1")] : List (Action × Text)) ∧
      (r.plan.groups.map Group.name).Nodup ∧
      ∀ g ∈ r.plan.groups, ∃ v, FieldVar r.tree d'.members g.name v ∧
        (∀ id, CarriesName r.tree 27 g.name id ↔ id = v) ∧
        (g.action = .insert ∧ 28 < v ∨ (g.action = .reuse ∨ g.action = .rename) ∧ v = g.var) := by
  have accepted := read_writtenUnit (t := crossingUnit) (by decide +kernel)
  have inUnit : crossingUnit.Below crossingUnit.root 27 := .step .refl ⟨_, rfl, by decide⟩
  obtain ⟨r, d', run, held, result⟩ := committed_names_unique accepted
    (List.mem_singleton.mpr rfl) inUnit rfl (by decide) {}
  have names : (runClass {} crossingUnit 27).toOption.map
      (fun result => result.toOption.map fun r => r.plan.groups.map fun g => (g.action, g.name)) =
      some (some ([(.reuse, "ON"), (.rename, "GO"), (.insert, "HI_1")] :
        List (Action × Text))) := by decide +kernel
  rw [run] at names
  exact ⟨r, d', run, held, by simpa [Except.toOption] using names, result⟩

end LiteralHoist.Consolidate
