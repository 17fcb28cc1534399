import LiteralHoist.Consolidate.Run
import LiteralHoist.Proofs.Source.Arena

/-!
# Forms that runs write

A run writes few forms: references and variables under other names, references to constants, the
declarations of new constants, and classes with more members.  A property of forms that all of them
have holds throughout the tree that a run leaves if it held throughout the tree before.
-/

set_option autoImplicit false

namespace LiteralHoist.Consolidate

open LiteralHoist.Source

/-- The forms that a run writes have a property if those that it replaces have it. -/
structure Lasting (P : Form → Prop) : Prop where
  renamed : ∀ name form, P form → P (renamedForm name form)
  variable_ : ∀ name init, P (.namedVar name init)
  literal : ∀ lit, P (.literal lit)
  declaration : ∀ type vars, P (.varDecl { mods := .constant, type, vars })
  reference : ∀ owner name type declared,
    P (.ident name type (some { owner, name, mods := .constant, type := declared }))
  members : ∀ d members, P (.classDecl d) → P (.classDecl { d with members })

theorem holds_of_literalAt {t : Tree} {id : NodeId} {pos : Position} {lit : Literal}
    (found : literalAt t id = .ok (pos, lit)) : t.Holds id ⟨pos, .literal lit⟩ := by
  obtain ⟨entry, looked, found⟩ := bind_eq_ok found
  rcases entry with _ | ⟨pos', form⟩
  · contradiction
  · cases form with
    | literal lit' =>
        obtain ⟨rfl, rfl⟩ := Prod.mk.inj (Except.ok.inj found)
        exact looked
    | _ => contradiction

section Edits
variable {P : Form → Prop} (lasting : Lasting P) {t u : Tree}
include lasting

theorem throughout_renameReference {name : Text} {id : NodeId} (throughout : t.Throughout P)
    (renamed : renameReference name t id = .ok u) : u.Throughout P := by
  obtain ⟨entry, looked, renamed⟩ := bind_eq_ok renamed
  cases entry with
  | none => exact Except.ok.inj renamed ▸ throughout
  | some n => exact throughout.set looked renamed (lasting.renamed name _ (throughout id n looked))

theorem throughout_renameVar {name : Text} {id : NodeId} (throughout : t.Throughout P)
    (renamed : renameVar t id name = .ok u) : u.Throughout P := by
  obtain ⟨entry, looked, renamed⟩ := bind_eq_ok renamed
  rcases entry with _ | ⟨pos, form⟩
  · contradiction
  · cases form with
    | namedVar old init => exact throughout.set looked renamed (lasting.variable_ name init)
    | _ => contradiction

theorem throughout_carryOutRenaming {r : Renaming} (throughout : t.Throughout P)
    (renamed : carryOutRenaming t r = .ok u) : u.Throughout P := by
  obtain ⟨v, declared, renamed⟩ := bind_eq_ok renamed
  exact foldlM_preserves (fun _ _ _ => throughout_renameReference lasting) r.refs
    (throughout_renameVar lasting throughout declared) renamed

theorem throughout_declareConstant (throughout : t.Throughout P) (name : Text) (lit : Literal) :
    (declareConstant t name lit).1.Throughout P := by
  have first := throughout.push (n := { form := .literal lit }) (lasting.literal lit)
  have second := first.push (n := { form := .namedVar name (t.size + 1) })
    (lasting.variable_ name (t.size + 1))
  exact second.push (lasting.declaration lit.type _)

theorem throughout_replaceSite {fqn name : Text} {id : NodeId} {state last : Tree × Text}
    (throughout : state.1.Throughout P) (replaced : replaceSite fqn name state id = .ok last) :
    last.1.Throughout P := by
  obtain ⟨⟨pos, lit⟩, found, replaced⟩ := bind_eq_ok replaced
  obtain ⟨v, written, made⟩ := bind_eq_ok replaced
  rw [← Except.ok.inj made]
  exact throughout.set (holds_of_literalAt found) written (lasting.reference _ _ _ _)

theorem throughout_replaceSites {fqn name : Text} {ids : List NodeId} {type : Text}
    {last : Tree × Text} (throughout : t.Throughout P)
    (replaced : ids.foldlM (replaceSite fqn name) (t, type) = .ok last) : last.1.Throughout P :=
  foldlM_preserves (P := fun s => s.1.Throughout P)
    (fun _ _ _ => throughout_replaceSite lasting) ids throughout replaced

theorem throughout_carryOutGroup {fqn : Text} {g : Group} {last : Tree × List NodeId}
    (throughout : t.Throughout P) (carried : carryOutGroup fqn t g = .ok last) :
    last.1.Throughout P := by
  obtain ⟨value, sites, action, name, oldName, var⟩ := g
  cases action with
  | insert =>
      obtain ⟨lit, found, carried⟩ := bind_eq_ok carried
      obtain ⟨state, replaced, made⟩ := bind_eq_ok carried
      rw [← Except.ok.inj made]
      have declared := throughout_declareConstant lasting throughout name lit
      exact throughout_replaceSites lasting declared replaced
  | _ =>
      obtain ⟨state, replaced, made⟩ := bind_eq_ok carried
      rw [← Except.ok.inj made]
      exact throughout_replaceSites lasting throughout replaced

theorem throughout_carryOutGroups {fqn : Text} (groups : List Group) :
    ∀ {t : Tree} {last : Tree × List NodeId}, t.Throughout P →
      carryOutGroups fqn t groups = .ok last → last.1.Throughout P := by
  induction groups with
  | nil =>
      intro t last throughout done
      rw [← Except.ok.inj done]
      exact throughout
  | cons g rest ih =>
      intro t last throughout carried
      obtain ⟨⟨v, decls⟩, first, carried⟩ := bind_eq_ok carried
      obtain ⟨⟨w, more⟩, later, made⟩ := bind_eq_ok carried
      have kept : v.Throughout P := throughout_carryOutGroup lasting throughout first
      have keptLater : w.Throughout P := ih kept later
      rw [← Except.ok.inj made]
      exact keptLater

theorem throughout_prependMembers {c : NodeId} {decls : List NodeId}
    (throughout : t.Throughout P) (prepended : prependMembers t c decls = .ok u) :
    u.Throughout P := by
  obtain ⟨entry, looked, prepended⟩ := bind_eq_ok prepended
  rcases entry with _ | ⟨pos, form⟩
  · contradiction
  · cases form with
    | classDecl d =>
        exact throughout.set looked prepended (lasting.members d _ (throughout c _ looked))
    | _ => contradiction

theorem throughout_applyPlan {p : Plan} {last : Tree × Stats} (throughout : t.Throughout P)
    (applied : applyPlan t p = .ok last) : last.1.Throughout P := by
  rw [applyPlan] at applied
  split at applied
  · rw [← Except.ok.inj applied]
    exact throughout
  · obtain ⟨d, _, applied⟩ := bind_eq_ok applied
    obtain ⟨lists, _, applied⟩ := bind_eq_ok applied
    obtain ⟨v, renamed, applied⟩ := bind_eq_ok applied
    obtain ⟨⟨w, decls⟩, carried, applied⟩ := bind_eq_ok applied
    have kept := foldlM_preserves (fun _ _ _ => throughout_carryOutRenaming lasting) lists.flatten
      throughout renamed
    have replaced := throughout_carryOutGroups lasting p.groups kept carried
    simp only at applied
    split at applied
    · rw [← Except.ok.inj applied]
      exact replaced
    · obtain ⟨x, prepended, made⟩ := bind_eq_ok applied
      rw [← Except.ok.inj made]
      exact throughout_prependMembers lasting replaced prepended

theorem throughout_runClass {settings : Settings} {file : Text} {c : NodeId} {r next : UnitRun}
    (throughout : r.tree.Throughout P) (ran : UnitRun.runClass settings file r c = .ok next) :
    next.tree.Throughout P := by
  obtain ⟨answer, first, ran⟩ := bind_eq_ok ran
  cases answer with
  | error e =>
      rw [← Except.ok.inj ran]
      exact throughout
  | ok cr =>
      rw [← Except.ok.inj ran]
      obtain ⟨planned, _, first⟩ := bind_eq_ok first
      cases planned with
      | error e => cases Except.ok.inj first
      | ok p =>
          obtain ⟨⟨u, stats⟩, applied, made⟩ := bind_eq_ok first
          rw [← Except.ok.inj (Except.ok.inj made)]
          exact throughout_applyPlan lasting throughout applied

/-- What the forms that a run writes have in common with those before stays true of all nodes. -/
theorem throughout_runUnit {settings : Settings} {r : UnitRun} (throughout : t.Throughout P)
    (ran : runUnit settings t = .ok r) : r.tree.Throughout P := by
  obtain ⟨uses, _, ran⟩ := bind_eq_ok ran
  cases uses with
  | false =>
      rw [← Except.ok.inj ran]
      exact throughout
  | true =>
      obtain ⟨file, _, ran⟩ := bind_eq_ok ran
      obtain ⟨all, _, ran⟩ := bind_eq_ok ran
      exact foldlM_preserves (P := fun r : UnitRun => r.tree.Throughout P)
        (fun _ _ _ => throughout_runClass lasting) all throughout ran

end Edits

end LiteralHoist.Consolidate
