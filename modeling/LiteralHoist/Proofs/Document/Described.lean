import LiteralHoist.Proofs.Document.Rewritten

/-!
# Forms that can be described

A node is written by its attributes and its children.  What is written is read as the same node if
any attributes describe its form at all: its modifiers have to be named by words, and an assignment
has to have an operator.  Every node of a tree that was read can be described.
-/

set_option autoImplicit false

namespace LiteralHoist.Document

open LiteralHoist.Source

def Describable (form : Form) : Prop :=
  ∃ a : Attributes, a.Describes form

theorem spelled_constant : Spelled .constant :=
  ⟨["private", "static", "final"], by decide⟩

theorem describable_ident {name type : Text} {field : Option FieldSymbol}
    (spelled : ∀ s ∈ field, Spelled s.mods) : Describable (.ident name type field) :=
  ⟨nodeAttributes { form := .ident name type field }, checkedField_of_spelled rfl spelled, rfl, rfl⟩

theorem describable_fieldAccess {x : NodeId} {name type : Text} {field : Option FieldSymbol}
    (spelled : ∀ s ∈ field, Spelled s.mods) : Describable (.fieldAccess x name type field) :=
  ⟨nodeAttributes { form := .fieldAccess x name type field },
    checkedField_of_spelled rfl spelled, rfl, rfl⟩

theorem describable_varDecl {d : VarDecl} (spelled : Spelled d.mods) : Describable (.varDecl d) :=
  ⟨nodeAttributes { form := .varDecl d }, checkedMods_of_spelled spelled _, rfl⟩

theorem describable_literal (lit : Literal) : Describable (.literal lit) :=
  ⟨nodeAttributes { form := .literal lit }, checkedLiteral_name rfl, rfl, rfl, rfl⟩

theorem describable_namedVar (name : Text) (init : NodeId) : Describable (.namedVar name init) :=
  ⟨nodeAttributes { form := .namedVar name init }, rfl⟩

theorem hereditary_describable :
    Hereditary (fun _ _ t _ t' => t.Throughout Describable → t'.Throughout Describable)
      (fun _ _ t _ t' => t.Throughout Describable → t'.Throughout Describable) where
  nil _ _ before := before
  skip again := again
  cons _ first _ later before := later (first before)
  node added lists singles before :=
    (added.places.preserves lists singles before).push ⟨_, added.describes⟩

theorem describable_of_treeOfUnit {u : Option Wire} {t : Tree} (success : treeOfUnit u = .ok t) :
    t.Throughout Describable := by
  obtain ⟨built, root, added, rfl⟩ := treeOfUnit_eq success
  have start : Tree.Throughout Describable {} := fun id n held =>
    absurd (Nat.le_zero.mp held.le_size) held.ne_zero
  rcases addOption_cases added with ⟨_, _, rfl⟩ | ⟨w, present, run⟩
  · exact start
  · exact hereditary_describable.addNode w [.unit] {} root built run start

end LiteralHoist.Document
