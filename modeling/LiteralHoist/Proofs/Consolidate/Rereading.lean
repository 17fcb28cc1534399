import LiteralHoist.Proofs.Consolidate.Renumber
import LiteralHoist.Proofs.Consolidate.Safety
import LiteralHoist.Proofs.Document.Renumber
import LiteralHoist.Proofs.Source.RenumberText

/-!
# Runs and written trees

A tree that runs have edited has new nodes behind the old ones, so its numbers are not those under
which it is read after it was written.  This makes no difference: what is read is the same tree
under other numbers, and a run on it makes the same plans and leaves the same tree, up to numbers.
Writing a tree and reading it between two runs is as good as going on with the tree.
-/

set_option autoImplicit false

namespace LiteralHoist.Consolidate

open LiteralHoist.Source LiteralHoist.Document

theorem lasting_describable : Lasting Describable where
  renamed name form describable := by
    obtain ⟨a, described⟩ := describable
    cases form with
    | ident old type field =>
        refine describable_ident fun s member => ?_
        obtain ⟨before, known, rfl⟩ := Option.mem_map.mp member
        exact spelled_of_checkedField described.1 before known
    | fieldAccess x old type field =>
        refine describable_fieldAccess fun s member => ?_
        obtain ⟨before, known, rfl⟩ := Option.mem_map.mp member
        exact spelled_of_checkedField described.1 before known
    | _ => exact ⟨a, described⟩
  variable_ := describable_namedVar
  literal := describable_literal
  declaration _ _ := describable_varDecl spelled_constant
  reference _ _ _ _ := describable_ident fun s member => by
    obtain rfl := Option.some.inj member
    exact spelled_constant
  members _ _ describable := describable

theorem describable_runSequence {passes : List Settings} {t u : Tree}
    (describable : t.Throughout Describable) (run : runSequence passes t = .ok u) :
    u.Throughout Describable := by
  refine foldlM_preserves (fun before settings after kept ran => ?_) passes describable run
  obtain ⟨r, first, rfl⟩ := map_eq_ok ran
  exact throughout_runUnit lasting_describable kept first

/-- After any runs on a unit that was read, the tree is compact and its root is a unit. -/
theorem compact_runSequence {u : Option Wire} {t₀ t : Tree} {passes : List Settings}
    (decoded : treeOfUnit u = .ok t₀) (present : t₀.root ≠ 0)
    (reached : runSequence passes t₀ = .ok t) :
    t.Compact ∧ ∃ pos d, t.Holds t.root ⟨pos, .unit d⟩ := by
  obtain ⟨t', run, _, kept⟩ := runSequence_preserves
    (fun t => t.Compact ∧ ∃ pos d, t.Holds t.root ⟨pos, .unit d⟩)
    (fun step both => ⟨step.compact both.1, step.unit both.2⟩) passes
    (conforms_of_treeOfUnit decoded present)
    ⟨compact_of_treeOfUnit decoded present, unit_of_treeOfUnit decoded present⟩
  exact Except.ok.inj (run.symm.trans reached) ▸ kept

/-- What is written for a tree after any runs is read as the same tree under other numbers. -/
theorem exists_reread {u₀ : Option Wire} {t₀ t : Tree} {passes : List Settings}
    (decoded : treeOfUnit u₀ = .ok t₀) (reached : runSequence passes t₀ = .ok t)
    (declares : DeclaresVars t) :
    (t.root = 0 ∨ t.Conforms ∧ ∃ pos d, t.Holds t.root ⟨pos, .unit d⟩) ∧
      ∃ u t' ρ, unitOfTree t = .ok u ∧ treeOfUnit u = .ok t' ∧ t.Renumbers ρ t' ∧
        t.SamePositions t' ρ := by
  by_cases absent : t₀.root = 0
  · rw [runSequence_of_no_root passes absent, eq_empty_of_treeOfUnit decoded absent] at reached
    obtain rfl := Except.ok.inj reached
    refine ⟨.inl rfl, none, {}, id, rfl, rfl, .empty, fun position => ?_, fun _ _ => rfl⟩
    rw [Option.map_id, id_eq]
  · obtain ⟨compact, unit⟩ := compact_runSequence decoded absent reached
    have described := describable_runSequence (describable_of_treeOfUnit decoded) reached
    obtain ⟨u, t', ρ, written, read, same⟩ := exists_renumbered compact unit described declares
    exact ⟨.inr ⟨compact.conforms, unit⟩, u, t', ρ, written, read, same, same.samePositions compact⟩

theorem exists_runUnit (settings : Settings) {t : Tree} (sound : t.root = 0 ∨ t.Conforms) :
    ∃ r, runUnit settings t = .ok r ∧ (r.tree.root = 0 ∨ r.tree.Conforms) := by
  rcases sound with absent | conforms
  · exact ⟨_, runUnit_of_no_root settings absent, .inl absent⟩
  · obtain ⟨r, ran, conforms', _⟩ :=
      runUnit_preserves settings (fun _ => True) (fun _ _ => trivial) conforms trivial
    exact ⟨r, ran, .inr conforms'⟩

/-- A tree that was read and run on any number of times is written and read as the same tree under
other numbers: it has the same text and the same wire form, and every run makes the same plans and
leaves the same tree, up to numbers. -/
theorem runs_commute_with_rereading {u₀ : Option Wire} {t₀ t : Tree} {passes : List Settings}
    (decoded : treeOfUnit u₀ = .ok t₀) (reached : runSequence passes t₀ = .ok t)
    (declares : DeclaresVars t) :
    ∃ u t' ρ, unitOfTree t = .ok u ∧ treeOfUnit u = .ok t' ∧ t.SamePositions t' ρ ∧
      (t.root ≠ 0 → ∃ text, t.render t.root = .ok text) ∧
      t'.render t'.root = t.render t.root ∧ unitOfTree t' = .ok u ∧
      ∀ settings, ∃ r r' w, runUnit settings t = .ok r ∧ runUnit settings t' = .ok r' ∧
        r'.stats = r.stats ∧ r'.errors = r.errors ∧
        r'.plans = r.plans.map (Plan.renumber ρ) ∧
        unitOfTree r.tree = .ok w ∧ unitOfTree r'.tree = .ok w := by
  obtain ⟨sound, u, t', ρ, written, read, same, positions⟩ :=
    exists_reread decoded reached declares
  refine ⟨u, t', ρ, written, read, positions, fun present => ?_, ?_, ?_, fun settings => ?_⟩
  · obtain ⟨conforms, _, _, held⟩ := sound.resolve_left present
    exact exists_render conforms held
  · rw [same.root_eq, same.render_eq]
  · rw [unitOfTree_renumber same, written]
  · obtain ⟨r, ran, soundAfter⟩ := exists_runUnit settings (sound.imp_right And.left)
    obtain ⟨r', ran', alike⟩ := runUnit_renumber same ran
    obtain ⟨w, wire⟩ := exists_unitOfTree soundAfter
    refine ⟨r, r', w, ran, ran', alike.stats_eq, alike.errors_eq, alike.plans_eq, wire, ?_⟩
    rw [unitOfTree_renumber alike.tree, wire]

def mixedUnit : Tree where
  root := 11
  nodes := #[
    some { form := .literal { value := "on", type := "String" } },
    some { form := .literal { value := "off", type := "String" } },
    some { form := .literal { value := "on", type := "String" } },
    some { form := .literal { value := "off", type := "String" } },
    some { form := .literal { value := "on", type := "String" } },
    some { form := .call 0 "g" [1, 2, 3, 4, 5] "" },
    some { form := .exprStmt 6 },
    some { form := .block [7] },
    some { form := .method { result := "void", name := "f", body := 8 } },
    some { form := .classDecl { name := "A", fqn := "A", members := [9] } },
    some { form := .unit { name := "A.java", classes := [10] } }]

/-- The class after a run on the literal that is passed three times: the new constant comes first
in the class, but has the last numbers. -/
def hoistedUnit : Tree where
  root := 11
  nodes :=
    let on : Form := .ident "ON" "String"
      (some { owner := "A", name := "ON", mods := .constant, type := "String" })
    #[some { form := on },
      some { form := .literal { value := "off", type := "String" } },
      some { form := on },
      some { form := .literal { value := "off", type := "String" } },
      some { form := on },
      some { form := .call 0 "g" [1, 2, 3, 4, 5] "" },
      some { form := .exprStmt 6 },
      some { form := .block [7] },
      some { form := .method { result := "void", name := "f", body := 8 } },
      some { form := .classDecl { name := "A", fqn := "A", members := [14, 9] } },
      some { form := .unit { name := "A.java", classes := [10] } },
      some { form := .literal { value := "on", type := "String" } },
      some { form := .namedVar "ON" 12 },
      some { form := .varDecl { mods := .constant, type := "String", vars := [13] } }]

theorem hoistedUnit_reached :
    runSequence [{ minOccurrences := 3 }] mixedUnit = .ok hoistedUnit := by
  decide +kernel

theorem hoistedUnit_declaresVars : DeclaresVars hoistedUnit := by
  intro id pos d held
  obtain ⟨_, rfl⟩ : pos = {} ∧ d = { mods := .constant, type := "String", vars := [13] } := by
    simpa [hoistedUnit] using held.mem_nodes
  decide

theorem hoistedUnit_commutes :
    ∃ u t' ρ, unitOfTree hoistedUnit = .ok u ∧ treeOfUnit u = .ok t' ∧
      hoistedUnit.SamePositions t' ρ ∧ ρ 14 = 3 ∧
      t'.render t'.root = hoistedUnit.render hoistedUnit.root ∧ unitOfTree t' = .ok u ∧
      ∃ r r' w, runUnit {} hoistedUnit = .ok r ∧ runUnit {} t' = .ok r' ∧
        r.stats = { inserted := 1, replaced := 2 } ∧ r'.stats = r.stats ∧
        r'.errors = r.errors ∧ r'.plans = r.plans.map (Plan.renumber ρ) ∧
        unitOfTree r.tree = .ok w ∧ unitOfTree r'.tree = .ok w := by
  have accepted := read_writtenUnit (t := mixedUnit) (by decide +kernel)
  obtain ⟨_, _, _, _, decoded⟩ := treeOfUnit_of_read accepted (List.mem_singleton.mpr rfl)
  obtain ⟨u, t', ρ, written, read, positions, _, text, wire, commute⟩ :=
    runs_commute_with_rereading decoded hoistedUnit_reached hoistedUnit_declaresVars
  obtain ⟨r, r', w, ran, ran', stats, rest⟩ := commute {}
  have counted : (runUnit {} hoistedUnit).toOption.map UnitRun.stats =
      some { inserted := 1, replaced := 2 } := by decide +kernel
  have member : ((unitOfTree hoistedUnit).toOption.bind fun u => (treeOfUnit u).toOption).bind
      (fun t' => t'.locate t'.root [0, 0]) = some 3 := by decide +kernel
  refine ⟨u, t', ρ, written, read, positions, ?_, text, wire, r, r', w, ran, ran', ?_, stats, rest⟩
  · have there : hoistedUnit.locate hoistedUnit.root [0, 0] = some 14 := by decide +kernel
    simpa [written, read, Except.toOption, positions.at_position, there] using member
  · simpa [ran, Except.toOption] using counted

end LiteralHoist.Consolidate
