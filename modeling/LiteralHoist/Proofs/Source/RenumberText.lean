import LiteralHoist.Proofs.Source.Renumber
import LiteralHoist.Source.Render

/-!
# Source text under other numbers

The source text of a tree does not show numbers: a tree and the same tree under other numbers have
the same text, or neither of them has one.
-/

set_option autoImplicit false

namespace LiteralHoist.Source.Tree.Renumbers

variable {t t' : Tree} {ρ : NodeId → NodeId} (same : t.Renumbers ρ t')
include same

theorem exprText_eq (depth : Nat) : ∀ id, t'.exprText depth (ρ id) = t.exprText depth id := by
  induction depth with
  | zero => exact fun _ => rfl
  | succ depth ih =>
      intro id
      have list := fun ids => mapM_map_eq ih ids
      simp only [exprText]
      refine same.bind_form?_eq (fun entry => ?_) id
      cases entry with
      | none => simp only [Option.map_none]
      | some form =>
          cases form <;>
            simp only [Option.map_some, Form.renumber, ih, list, same.eq_zero_iff, List.isEmpty_map,
              Form.kind]

theorem expr_eq (id : NodeId) : t'.expr (ρ id) = t.expr id := by
  rw [expr, expr, same.size_eq, same.exprText_eq]

theorem initializedName_eq (name : Text) (init : NodeId) :
    t'.initializedName name (ρ init) = t.initializedName name init := by
  simp only [initializedName, same.eq_zero_iff, same.expr_eq]

theorem namedVariable_eq (id : NodeId) : t'.namedVariable (ρ id) = t.namedVariable id := by
  refine same.bind_form?_eq (fun entry => ?_) id
  rcases entry with _ | form
  · rfl
  · cases form <;> simp only [Option.map_some, Form.renumber, same.initializedName_eq]

theorem declaration_eq (d : VarDecl) : t'.declaration (d.renumber ρ) = t.declaration d := by
  simp only [declaration, VarDecl.renumber, mapM_map_eq same.namedVariable_eq]

theorem parameter_eq (id : NodeId) : t'.parameter (ρ id) = t.parameter id := by
  refine same.bind_form?_eq (fun entry => ?_) id
  rcases entry with _ | form
  · simp only [Option.map_none]
  · cases form <;> simp only [Option.map_some, Form.renumber, same.declaration_eq]
    case varDecl d => rw [VarDecl.renumber, mapM_map_eq same.expr_eq]

theorem annotationLines_eq (level : Nat) (ids : List NodeId) :
    t'.annotationLines level (ids.map ρ) = t.annotationLines level ids := by
  simp only [annotationLines, mapM_map_eq same.expr_eq]

section Inner
variable {inner inner' : StatementText} (agree : ∀ level id, inner' level (ρ id) = inner level id)
include agree

omit same in
theorem braces_eq (level : Nat) (ids : List NodeId) :
    braces inner' level (ids.map ρ) = braces inner level ids := by
  simp only [braces, mapM_map_eq (agree (level + 1))]

theorem bodyText_eq (level : Nat) (id : NodeId) :
    t'.bodyText inner' level (ρ id) = t.bodyText inner level id := by
  refine same.bind_form?_eq (fun entry => ?_) id
  rcases entry with _ | form
  · rfl
  · cases form <;> simp only [Option.map_some, Form.renumber, braces_eq agree]

theorem branchText_eq (level : Nat) (id : NodeId) :
    t'.branchText inner' level (ρ id) = t.branchText inner level id := by
  have single : braces inner' level [ρ id] = braces inner level [id] := braces_eq agree level [id]
  refine same.bind_form?_eq (fun entry => ?_) id
  rcases entry with _ | form
  · exact single
  · cases form <;> simp only [Option.map_some, Form.renumber, braces_eq agree, single]

theorem classText_eq (level : Nat) (d : ClassDecl) :
    t'.classText inner' level (d.renumber ρ) = t.classText inner level d := by
  simp only [classText, ClassDecl.renumber, same.annotationLines_eq, braces_eq agree]

theorem methodText_eq (level : Nat) (d : MethodDecl) :
    t'.methodText inner' level (d.renumber ρ) = t.methodText inner level d := by
  simp only [methodText, MethodDecl.renumber, same.annotationLines_eq,
    mapM_map_eq same.parameter_eq, same.eq_zero_iff, same.bodyText_eq agree]
  rfl

end Inner

section Step
variable {depth : Nat}
  (statements : ∀ level id, t'.statementText depth level (ρ id) = t.statementText depth level id)
  (conditionals : ∀ level c a b, t'.conditionalText depth level (ρ c) (ρ a) (ρ b) =
    t.conditionalText depth level c a b)
include statements conditionals

theorem statementText_step (level : Nat) (id : NodeId) :
    t'.statementText (depth + 1) level (ρ id) = t.statementText (depth + 1) level id := by
  simp only [statementText, same.expr_eq]
  refine same.bind_form?_eq (fun entry => ?_) id
  rcases entry with _ | form
  · simp only [Option.map_none]
  · cases form <;>
      simp only [Option.map_some, Form.renumber, braces_eq statements, same.expr_eq,
        same.eq_zero_iff, same.declaration_eq, conditionals, same.classText_eq statements,
        same.methodText_eq statements]
    case varDecl d => rw [VarDecl.renumber, same.annotationLines_eq]

theorem conditionalText_step (level : Nat) (c a b : NodeId) :
    t'.conditionalText (depth + 1) level (ρ c) (ρ a) (ρ b) =
      t.conditionalText (depth + 1) level c a b := by
  have absent : ρ b = 0 ↔ b = 0 := same.eq_zero_iff
  simp only [conditionalText, same.expr_eq, same.branchText_eq statements]
  congr 1
  funext head
  congr 1
  funext taken
  by_cases alone : b = 0
  · simp only [alone, same.zero, if_true]
  · simp only [absent.not.mpr alone, alone, if_false]
    refine same.bind_form?_eq (fun entry => ?_) b
    rcases entry with _ | form
    · simp only [Option.map_none]
    · cases form <;> simp only [Option.map_some, Form.renumber, conditionals]

end Step

theorem statementText_eq (depth : Nat) :
    (∀ level id, t'.statementText depth level (ρ id) = t.statementText depth level id) ∧
      ∀ level c a b, t'.conditionalText depth level (ρ c) (ρ a) (ρ b) =
        t.conditionalText depth level c a b := by
  induction depth with
  | zero =>
      refine ⟨fun level id => ?_, fun level c a b => ?_⟩
      · rw [statementText, statementText]
      · rw [conditionalText, conditionalText]
  | succ depth ih =>
      exact ⟨same.statementText_step ih.1 ih.2, same.conditionalText_step ih.1 ih.2⟩

theorem statement_eq (level : Nat) (id : NodeId) :
    t'.statement level (ρ id) = t.statement level id := by
  rw [statement, statement, same.size_eq, (same.statementText_eq _).1]

theorem unitClass_eq (id : NodeId) : t'.unitClass (ρ id) = t.unitClass id := by
  refine same.bind_form?_eq (fun entry => ?_) id
  rcases entry with _ | form
  · rfl
  · cases form <;> simp only [Option.map_some, Form.renumber, same.classText_eq same.statement_eq]

theorem unitText_eq (d : UnitDecl) : t'.unitText (d.renumber ρ) = t.unitText d := by
  simp only [unitText, UnitDecl.renumber, mapM_map_eq same.unitClass_eq]
  rfl

/-- The source text below a number is that below the same number under another one. -/
theorem render_eq (id : NodeId) : t'.render (ρ id) = t.render id := by
  simp only [render, same.expr_eq, same.statement_eq]
  refine same.bind_form?_eq (fun entry => ?_) id
  rcases entry with _ | form
  · simp only [Option.map_none]
  · cases form <;>
      simp only [Option.map_some, Form.renumber, same.unitText_eq, same.initializedName_eq]

end LiteralHoist.Source.Tree.Renumbers
