import LiteralHoist.Proofs.Consolidate.ClassPlan
import LiteralHoist.Proofs.Document.Decoded

/-!
# Names that a plan brings into a class

A name that a plan gives to a new or renamed constant is the name of no variable anywhere in the
class, and of no simple name in it that refers to a field of another class.  A simple name that was
not resolved to a field is not looked at: unless a variable of the class has the same name, a
constant may take it.
-/

set_option autoImplicit false

namespace LiteralHoist.Consolidate

open LiteralHoist.Source LiteralHoist.Document

/-- A class with a resolved type always gets a plan, and no name that the plan brings into the
class is that of a variable in the class or of a reference by simple name to a field of another
class. -/
theorem new_names_avoid_bound_names {codec : Codec} {bytes : List UInt8} {doc : Document}
    (accepted : Document.read codec bytes = .ok doc) {t : Tree} (member : t ∈ doc.trees)
    {c : NodeId} (inUnit : t.Below t.root c) {pos : Position} {d : ClassDecl}
    (held : t.Holds c ⟨pos, .classDecl d⟩) (resolved : d.fqn ≠ "") (settings : Settings) :
    ∃ p, planClass t settings c = .ok (.ok p) ∧
      ∀ g ∈ p.groups, g.action = .insert ∨ g.action = .rename →
        (∀ id pos name init, t.Below c id → t.Holds id ⟨pos, .namedVar name init⟩ →
          name ≠ g.name) ∧
        (∀ id pos name type field, t.Below c id →
          t.Holds id ⟨pos, .ident name type (some field)⟩ → field.owner ≠ d.fqn →
          name ≠ g.name) := by
  obtain ⟨f, shaped⟩ := conforms_of_read accepted member (inUnit.ne_zero held)
  obtain ⟨below, here⟩ := Shaped.exists_classIn shaped (shaped.below_root.mp inUnit) held
  have fits := fits_classPlan here settings
  refine ⟨_, planClass_eq here settings resolved, fun g inPlan action => ?_⟩
  have new : g.action ≠ .reuse := by
    rcases action with isInsert | isRename
    · simp [isInsert]
    · simp [isRename]
  have unbound := fits.unbound g inPlan new
  constructor
  · rintro id idPos name init lower variable_ rfl
    exact unbound (bound_of_variable here lower variable_)
  · rintro id idPos name type field lower reference foreign rfl
    exact unbound (bound_of_foreign here lower reference foreign)

/-- A class in which `ON` is a field and `ON_1` a field of another class, and in which the value
`"on"` occurs twice. -/
def crowdedUnit : Tree where
  root := 12
  nodes := #[
    some { form := .namedVar "ON" 0 },
    some { form := .varDecl { type := "String", vars := [1] } },
    some { form := .ident "ON_1" "String" (some { owner := "Base", name := "ON_1" }) },
    some { form := .namedVar "x" 3 },
    some { form := .varDecl { type := "String", vars := [4] } },
    some { form := .literal { value := "on", type := "String" } },
    some { form := .literal { value := "on", type := "String" } },
    some { form := .binary "+" 6 7 "" },
    some { form := .namedVar "y" 8 },
    some { form := .varDecl { mods := .ofList [.final], type := "String", vars := [9] } },
    some { form := .classDecl { name := "A", fqn := "A", members := [2, 5, 10] } },
    some { form := .unit { name := "A.java", classes := [11] } }]

theorem crowdedUnit_new_name :
    ∃ p, planClass crowdedUnit {} 11 = .ok (.ok p) ∧ p.groups.map Group.name = ["ON_2"] ∧
      ∀ g ∈ p.groups, g.action = .insert ∨ g.action = .rename →
        (∀ id pos name init, crowdedUnit.Below 11 id →
          crowdedUnit.Holds id ⟨pos, .namedVar name init⟩ → name ≠ g.name) ∧
        (∀ id pos name type field, crowdedUnit.Below 11 id →
          crowdedUnit.Holds id ⟨pos, .ident name type (some field)⟩ → field.owner ≠ "A" →
          name ≠ g.name) := by
  have accepted := read_writtenUnit (t := crowdedUnit) (by decide +kernel)
  have inUnit : crowdedUnit.Below crowdedUnit.root 11 :=
    .step .refl ⟨_, rfl, by decide⟩
  obtain ⟨p, planned, avoids⟩ := new_names_avoid_bound_names accepted
    (List.mem_singleton.mpr rfl) inUnit rfl (by decide) {}
  have names : (planClass crowdedUnit {} 11).toOption.map
      (fun result => result.toOption.map fun p => p.groups.map Group.name) =
      some (some (["ON_2"] : List Text)) := by decide +kernel
  rw [planned] at names
  exact ⟨p, planned, by simpa [Except.toOption] using names, avoids⟩

/-- A class with a call of a method of `UUID`, which was not resolved to a field, with the argument
`"uuid"` twice. -/
def obscuringUnit : Tree where
  root := 9
  nodes := #[
    some { form := .ident "UUID" "" none },
    some { form := .literal { value := "uuid", type := "String" } },
    some { form := .literal { value := "uuid", type := "String" } },
    some { form := .call 1 "f" [2, 3] "" },
    some { form := .exprStmt 4 },
    some { form := .block [5] },
    some { form := .method { result := "void", name := "run", body := 6 } },
    some { form := .classDecl { name := "A", fqn := "A", members := [7] } },
    some { form := .unit { name := "A.java", classes := [8] } }]

/-- A simple name that was not resolved to a field may become the name of a new constant. -/
theorem unresolved_name_captured :
    Document.read .messagePack (writtenUnit obscuringUnit) =
        .ok ⟨Version.current, [obscuringUnit]⟩ ∧
      ∃ p g, planClass obscuringUnit {} 8 = .ok (.ok p) ∧ g ∈ p.groups ∧ g.action = .insert ∧
        obscuringUnit.Below 8 1 ∧ obscuringUnit.Holds 1 ⟨{}, .ident g.name "" none⟩ := by
  refine ⟨read_writtenUnit (by decide +kernel), { classId := 8, fqn := "A", groups := [
    { value := "uuid", sites := [2, 3], action := .insert, name := "UUID" }] }, _, ?_,
    List.mem_singleton.mpr rfl, rfl, ?_, rfl⟩
  · rfl
  · have method : obscuringUnit.Below 8 7 := .step .refl ⟨_, rfl, by decide⟩
    have body : obscuringUnit.Below 8 6 := .step method ⟨_, rfl, by decide⟩
    have statement : obscuringUnit.Below 8 5 := .step body ⟨_, rfl, by decide⟩
    have call : obscuringUnit.Below 8 4 := .step statement ⟨_, rfl, by decide⟩
    exact .step call ⟨_, rfl, by decide⟩

end LiteralHoist.Consolidate
