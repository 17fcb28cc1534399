import LiteralHoist.Proofs.Consolidate.Decision
import LiteralHoist.Proofs.Consolidate.Gate
import LiteralHoist.Proofs.Consolidate.Qualifying
import LiteralHoist.Proofs.Consolidate.Tally
import LiteralHoist.Proofs.Consolidate.Unresolved
import LiteralHoist.Proofs.Document.Nested

/-!
# Runs that deepen a unit

A reference nests more deeply than the literal in its place.  What is around a literal stays around
it in every step of a run, so a unit whose literals all lie deep is written more deeply after a run
that changes it.  Without a limit on suffixes, a run changes every unit with a repeated value for
which a name can be made.
-/

set_option autoImplicit false

namespace LiteralHoist.Consolidate

open LiteralHoist.Source LiteralHoist.Document

theorem relabelAll_fillings (rs : List Renaming) (id : NodeId) (f : Form) :
    fillings (relabelAll rs id f) = fillings f :=
  relabelAll_keeps fillings (fun _ f => by cases f <;> rfl) (fun _ f => by cases f <;> rfl) rs id f

section Step
variable {settings : Settings} {t t' : Tree} {f below : Forest} {c : NodeId} {pos : Position}
  {d : ClassDecl} {x id : NodeId} {k : Nat}

theorem ClassStep.encloses (step : ClassStep settings t t' f c below pos d)
    (encloses : Encloses t x id k) : Encloses t' x id k := by
  induction encloses with
  | self held =>
      obtain ⟨n, held', _⟩ := step.edited.resembles step.here step.fits held
      exact .self held'
  | one held filled _ ih =>
      rcases step.edited.old step.here step.fits held with
        ⟨rfl, same⟩ | ⟨_, _, _, _, _, same, _⟩ | ⟨_, _, kept⟩
      · obtain ⟨rfl, rfl⟩ := Node.mk.inj same
        simp [fillings] at filled
      · obtain ⟨rfl, rfl⟩ := Node.mk.inj same
        simp [fillings] at filled
      · exact .one kept ((relabelAll_fillings _ _ _).symm ▸ filled) ih
  | list held filled listed _ ih =>
      rcases step.edited.old step.here step.fits held with
        ⟨rfl, same⟩ | ⟨_, _, _, _, _, same, _⟩ | ⟨_, _, kept⟩
      · obtain ⟨rfl, rfl⟩ := Node.mk.inj same
        simp only [fillings, List.mem_cons, Filling.list.injEq, List.not_mem_nil, or_false]
          at filled
        rcases filled with ⟨rfl, rfl, rfl⟩ | ⟨rfl, rfl, rfl⟩
        · exact .list step.edited.class_ (List.mem_cons_self) listed ih
        · exact .list step.edited.class_ (List.mem_cons_of_mem _ List.mem_cons_self)
            (List.mem_append_right _ listed) ih
      · obtain ⟨rfl, rfl⟩ := Node.mk.inj same
        simp [fillings] at filled
      · exact .list kept ((relabelAll_fillings _ _ _).symm ▸ filled) listed ih

end Step

section Class
variable {settings : Settings} {file : Text} {t : Tree} {r r₁ : UnitRun} {f below : Forest}
  {c id : NodeId} {pos : Position} {d : ClassDecl} {k : Nat}

theorem Gathers.root_eq (gathers : Gathers settings file r c r₁) :
    r₁.tree.root = r.tree.root := by
  cases gathers with
  | pass => rfl
  | edit _ _ step => exact step.edited.root_eq

end Class

section Run
variable {settings : Settings} {t : Tree} {r : UnitRun}

end Run

end LiteralHoist.Consolidate
