import LiteralHoist.Proofs.Consolidate.Course
import LiteralHoist.Proofs.Document.Decoded
import LiteralHoist.Proofs.Document.Encoded
import LiteralHoist.Proofs.Source.Rendered

/-!
# Safety

No run on a unit of a document stops with a fault, whatever the runs before it, and the tree that it
leaves conforms to the grammar again: it can be rendered, written and run on.
-/

set_option autoImplicit false

namespace LiteralHoist.Consolidate

open LiteralHoist.Source LiteralHoist.Document

theorem ClassStep.unit {settings : Settings} {t t' : Tree} {f below : Forest} {c : NodeId}
    {pos : Position} {d : ClassDecl} (step : ClassStep settings t t' f c below pos d)
    (unit : ∃ pos d, t.Holds t.root ⟨pos, .unit d⟩) :
    ∃ pos d, t'.Holds t'.root ⟨pos, .unit d⟩ := by
  obtain ⟨unitPos, u, held⟩ := unit
  refine ⟨unitPos, u, ?_⟩
  rw [step.edited.root_eq]
  exact step.edited.fixed step.here step.fits held rfl

/-- A step appends nodes only below the class that it edits. -/
theorem ClassStep.compact {settings : Settings} {t t' : Tree} {f below : Forest} {c : NodeId}
    {pos : Position} {d : ClassDecl} (step : ClassStep settings t t' f c below pos d)
    (compact : t.Compact) : t'.Compact := by
  obtain ⟨g, shaped, full⟩ := compact
  have roots : f.roots = g.roots := by rw [step.here.shaped.roots_eq, shaped.roots_eq]
  obtain rfl := step.here.shaped.follows.unique shaped.follows roots
  refine ⟨_, step.shaped, ?_⟩
  rw [(perm_ids_editedForest step.here _).length_eq, List.length_append, newDeclarations,
    length_newTrees, full, step.edited.size_eq, Nat.add_comm]

theorem runSequence_of_no_root (passes : List Settings) {t : Tree} (absent : t.root = 0) :
    runSequence passes t = .ok t := by
  induction passes with
  | nil => rfl
  | cons settings rest ih =>
      rw [runSequence, List.foldlM_cons, runUnit_of_no_root settings absent]
      exact ih

section Read
variable {codec : Codec} {bytes : List UInt8} {doc : Document}
  (accepted : Document.read codec bytes = .ok doc) {t : Tree} (member : t ∈ doc.trees)
include accepted member

theorem runSequence_of_read (present : t.root ≠ 0) (passes : List Settings) :
    ∃ t', runSequence passes t = .ok t' ∧ t'.Conforms ∧
      ∃ pos d, t'.Holds t'.root ⟨pos, .unit d⟩ :=
  runSequence_preserves (fun u => ∃ pos d, u.Holds u.root ⟨pos, .unit d⟩) ClassStep.unit passes
    (conforms_of_read accepted member present) (unit_of_read accepted member present)

theorem sound_of_runSequence {passes : List Settings} {u : Tree}
    (run : runSequence passes t = .ok u) : u.root = 0 ∨ u.Conforms := by
  by_cases absent : t.root = 0
  · rw [runSequence_of_no_root passes absent] at run
    obtain rfl := Except.ok.inj run
    exact .inl absent
  · obtain ⟨t', run', conforms, _⟩ := runSequence_of_read accepted member absent passes
    obtain rfl := Except.ok.inj (run'.symm.trans run)
    exact .inr conforms

end Read

/-- What runs on the unit and on single classes make of a tree. -/
inductive Reached (t : Tree) : Tree → Prop where
  | read : Reached t t
  | unit {u : Tree} {settings : Settings} {r : UnitRun} (before : Reached t u)
      (run : runUnit settings u = .ok r) : Reached t r.tree
  | class_ {u : Tree} {settings : Settings} {c : NodeId} {r : ClassRun} (before : Reached t u)
      (run : runClass settings u c = .ok (.ok r)) : Reached t r.tree

theorem class_of_planClass {settings : Settings} {t : Tree} {c : NodeId} {p : Plan}
    (planned : planClass t settings c = .ok (.ok p)) :
    ∃ pos d, t.Holds c ⟨pos, .classDecl d⟩ ∧ d.fqn ≠ "" := by
  obtain ⟨entry, lookup, made⟩ := bind_eq_ok planned
  match entry with
  | none => simp at made
  | some (pos, d) =>
      refine ⟨pos, d, Tree.holds_of_classAt? lookup, fun unresolved => ?_⟩
      simp [unresolved, pure_eq_ok] at made

theorem class_of_runClass {settings : Settings} {t : Tree} {c : NodeId} {r : ClassRun}
    (run : runClass settings t c = .ok (.ok r)) :
    ∃ pos d, t.Holds c ⟨pos, .classDecl d⟩ ∧ d.fqn ≠ "" := by
  obtain ⟨planned, plan, made⟩ := bind_eq_ok run
  match planned with
  | .error e => simp [pure_eq_ok] at made
  | .ok p => exact class_of_planClass plan

theorem exists_classIn_of_compact {t : Tree} (compact : t.Compact) {c : NodeId} {pos : Position}
    {d : ClassDecl} (held : t.Holds c ⟨pos, .classDecl d⟩) :
    ∃ f below, ClassIn t f c below pos d := by
  obtain ⟨f, shaped⟩ := compact.conforms
  obtain ⟨below, here⟩ :=
    Shaped.exists_classIn shaped (shaped.below_root.mp (compact.below_root held)) held
  exact ⟨f, below, here⟩

/-- Runs keep a tree without other nodes, and leave an empty tree empty. -/
theorem Reached.compact {t u : Tree} (reached : Reached t u) (start : t = {} ∨ t.Compact) :
    u = {} ∨ u.Compact := by
  induction reached with
  | read => exact start
  | @unit u settings r before run ih =>
      rcases ih with rfl | compact
      · rw [runUnit_of_no_root settings rfl] at run
        exact .inl (congrArg UnitRun.tree (Except.ok.inj run)).symm
      · obtain ⟨r', run', _, kept⟩ :=
          runUnit_preserves settings Tree.Compact ClassStep.compact compact.conforms compact
        obtain rfl := Except.ok.inj (run'.symm.trans run)
        exact .inr kept
  | @class_ u settings c r before run ih =>
      obtain ⟨pos, d, held, resolved⟩ := class_of_runClass run
      rcases ih with rfl | compact
      · exact absurd (Nat.le_zero.mp held.le_size) held.ne_zero
      · obtain ⟨f, below, here⟩ := exists_classIn_of_compact compact held
        obtain ⟨r', run', _, step⟩ := runClass_edited settings here resolved
        obtain rfl := Except.ok.inj (Except.ok.inj (run'.symm.trans run))
        exact .inr (step.compact compact)

/-- After any runs on a unit that was read, every class that the tree holds belongs to the unit. -/
theorem exists_classIn_of_reached {codec : Codec} {bytes : List UInt8} {doc : Document}
    (accepted : Document.read codec bytes = .ok doc) {t : Tree} (member : t ∈ doc.trees) {u : Tree}
    (reached : Reached t u) {c : NodeId} {pos : Position} {d : ClassDecl}
    (held : u.Holds c ⟨pos, .classDecl d⟩) : ∃ f below, ClassIn u f c below pos d := by
  rcases reached.compact (empty_or_compact_of_read accepted member) with rfl | compact
  · exact absurd (Nat.le_zero.mp held.le_size) held.ne_zero
  · exact exists_classIn_of_compact compact held

/-- After any number of runs with any settings, every unit of a document that could be read is an
unshared finite tree that follows the grammar and has a source text, and every document of such
units can be written. -/
theorem runs_stay_safe {codec : Codec} {bytes : List UInt8} {doc : Document}
    (accepted : Document.read codec bytes = .ok doc) :
    (∀ t ∈ doc.trees, t.root ≠ 0 → ∀ passes : List Settings,
      ∃ t', runSequence passes t = .ok t' ∧ t'.WellFormed ∧
        ∃ text, t'.render t'.root = .ok text) ∧
      ∀ doc' : Document,
        (∀ u ∈ doc'.trees, ∃ t ∈ doc.trees, ∃ passes, runSequence passes t = .ok u) →
        ∀ codec', ∃ answer, doc'.write codec' = .ok answer := by
  constructor
  · intro t member present passes
    obtain ⟨t', run, conforms, unit⟩ := runSequence_of_read accepted member present passes
    obtain ⟨pos, d, held⟩ := unit
    exact ⟨t', run, conforms.wellFormed ⟨pos, d, held⟩, exists_render conforms held⟩
  · intro doc' reached codec'
    have sound : ∀ u ∈ doc'.trees, u.root = 0 ∨ u.Conforms := by
      intro u inDoc
      obtain ⟨t, member, passes, run⟩ := reached u inDoc
      exact sound_of_runSequence accepted member run
    obtain ⟨w, wire⟩ := exists_toWire sound
    exact ⟨Document.writeWire codec' w, by rw [Document.write, wire]; rfl⟩

def guardedUnit : Tree where
  root := 10
  nodes := #[
    some { form := .ident "x" "boolean" none },
    some { form := .literal { value := "on", type := "String" } },
    some { form := .literal { value := "on", type := "String" } },
    some { form := .call 0 "g" [2, 3] "" },
    some { form := .exprStmt 4 },
    some { form := .ifStmt 1 5 0 },
    some { form := .block [6] },
    some { form := .method { result := "void", name := "f", body := 7 } },
    some { form := .classDecl { name := "A", fqn := "A", members := [8] } },
    some { form := .unit { name := "A.java", classes := [9] } }]

theorem guardedUnit_stays_safe :
    ∃ t', runSequence [{}, { minOccurrences := 3 }] guardedUnit = .ok t' ∧ t'.size = 13 ∧
      t'.WellFormed ∧ (∃ text, t'.render t'.root = .ok text) ∧
      ∃ answer, Document.write .json ⟨Version.current, [t', guardedUnit]⟩ = .ok answer := by
  have accepted := read_writtenUnit (t := guardedUnit) (by decide +kernel)
  obtain ⟨units, documents⟩ := runs_stay_safe accepted
  obtain ⟨t', run, wellFormed, text⟩ :=
    units guardedUnit (by simp) (by decide) [{}, { minOccurrences := 3 }]
  have grown : (runSequence [{}, { minOccurrences := 3 }] guardedUnit).toOption.map Tree.size =
      some 13 := by decide +kernel
  refine ⟨t', run, by simpa [run, Except.toOption] using grown, wellFormed, text,
    documents _ (fun u member => ?_) .json⟩
  simp only [List.mem_cons, List.not_mem_nil, or_false] at member
  rcases member with rfl | rfl
  · exact ⟨guardedUnit, by simp, _, run⟩
  · exact ⟨guardedUnit, by simp, [], rfl⟩

end LiteralHoist.Consolidate
