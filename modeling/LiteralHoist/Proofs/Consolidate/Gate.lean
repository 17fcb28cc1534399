import LiteralHoist.Proofs.Consolidate.Course
import LiteralHoist.Proofs.Document.Decoded

/-!
# Units that are left alone

A run looks first whether the unit mentions the string type at all, and leaves it alone if not.
This loses nothing.  Every literal that can be an occurrence has the string type, so in a unit that
does not mention the type each resolved class gets a plan without groups and without values that
were skipped, and a run on all of its classes would leave the tree as it is.
-/

set_option autoImplicit false

namespace LiteralHoist.Source

/-- A form mentions a type: as the result of a method, as the type of a declaration or of an
expression, or as the class that is constructed. -/
inductive Form.Mentions : Form → Text → Prop where
  | result (d : MethodDecl) : Mentions (.method d) d.result
  | declared (d : VarDecl) : Mentions (.varDecl d) d.type
  | literal (lit : Literal) : Mentions (.literal lit) lit.type
  | ident (name type : Text) (field : Option FieldSymbol) : Mentions (.ident name type field) type
  | fieldAccess (x : NodeId) (name type : Text) (field : Option FieldSymbol) :
      Mentions (.fieldAccess x name type field) type
  | call (recv : NodeId) (name : Text) (args : List NodeId) (type : Text) :
      Mentions (.call recv name args type) type
  | binary (op : Text) (x y : NodeId) (type : Text) : Mentions (.binary op x y type) type
  | constructed (className : Text) (args : List NodeId) : Mentions (.new className args) className

/-- A form mentions one type at most, and none is written as the empty text. -/
theorem Form.mentions_iff {form : Form} {type : Text} (named : type ≠ "") :
    form.Mentions type ↔ form.mentionedType = type := by
  constructor
  · intro mentioned
    cases mentioned <;> rfl
  · rintro rfl
    cases form with
    | method d => exact .result d
    | varDecl d => exact .declared d
    | literal lit => exact .literal lit
    | ident name type field => exact .ident name type field
    | fieldAccess x name type field => exact .fieldAccess x name type field
    | call recv name args type => exact .call recv name args type
    | binary op x y type => exact .binary op x y type
    | new className args => exact .constructed className args
    | _ => exact absurd rfl named

def Tree.MentionsType (t : Tree) (accepts : Text → Bool) : Prop :=
  ∃ id n type, t.Below t.root id ∧ t.Holds id n ∧ n.form.Mentions type ∧ accepts type = true

end LiteralHoist.Source

namespace LiteralHoist.Consolidate

open LiteralHoist.Source LiteralHoist.Document

/-- The search for a type finds out whether the unit mentions it. -/
theorem usesType_iff_mentionsType {t : Tree} {f : Forest} (shaped : Shaped t f)
    {accepts : Text → Bool} (refuses : accepts "" = false) :
    t.usesType accepts t.root = .ok true ↔ t.MentionsType accepts := by
  rw [usesType_iff shaped]
  constructor
  · rintro ⟨id, n, inUnit, held, named, accepted⟩
    exact ⟨id, n, _, inUnit, held, (Form.mentions_iff named).mpr rfl, accepted⟩
  · rintro ⟨id, n, type, inUnit, held, mentioned, accepted⟩
    have named : type ≠ "" := by
      rintro rfl
      simp [refuses] at accepted
    rw [Form.mentions_iff named] at mentioned
    subst mentioned
    exact ⟨id, n, inUnit, held, named, accepted⟩

section Silent
variable {t : Tree} (silent : ¬ t.MentionsType isStringType)
include silent

theorem occurrencesIn_of_silent {f below : Forest} {c : NodeId} {pos : Position} {d : ClassDecl}
    (here : ClassIn t f c below pos d) (settings : Settings) :
    occurrencesIn t settings c below = [] := by
  refine List.eq_nil_iff_forall_not_mem.mpr fun ⟨value, id⟩ occurs => silent ?_
  obtain ⟨up, litPos, lit, visited, literal, isString, _⟩ := mem_occurrencesIn.mp occurs
  rw [Literal.isString, Bool.and_eq_true] at isString
  have inClass := Forest.fst_mem_of_visits (visits_ownPart_subset visited)
  have inUnit := here.shaped.below_root.mpr (here.part_subset inClass)
  exact ⟨id, _, lit.type, inUnit, literal, .literal lit, isString.2⟩

/-- A resolved class of the unit is planned, and there is nothing to plan. -/
theorem planClass_of_silent {f below : Forest} {c : NodeId} {pos : Position} {d : ClassDecl}
    (here : ClassIn t f c below pos d) (settings : Settings) (resolved : d.fqn ≠ "") :
    planClass t settings c = .ok (.ok { classId := c, fqn := d.fqn }) := by
  have nothing : repeatedIn t settings c below = [] := by
    rw [repeatedIn, occurrencesIn_of_silent silent here]
    rfl
  rw [planClass_eq here settings resolved, classPlan, nothing]
  rfl

end Silent

def runClasses (settings : Settings) (t : Tree) : Except Fault UnitRun := do
  let file ← unitName t
  (← t.classes t.root).foldlM (UnitRun.runClass settings file) { tree := t }

/-- A run on a unit is the run on its classes if the unit uses the string type. -/
theorem runUnit_of_uses {settings : Settings} {t : Tree}
    (uses : t.usesType isStringType t.root = .ok true) :
    runUnit settings t = runClasses settings t := by
  rw [runUnit, uses]
  rfl

/-- A run has not edited the tree that it started with. -/
structure Untouched (t : Tree) (r : UnitRun) : Prop where
  tree : r.tree = t
  stats : r.stats = {}
  plans : ∀ p ∈ r.plans, p.groups = [] ∧ p.skipped = []

theorem Gathers.untouched {settings : Settings} {file : Text} {t : Tree} {r r₁ : UnitRun}
    {c : NodeId} (silent : ¬ t.MentionsType isStringType) (gathers : Gathers settings file r c r₁)
    (before : Untouched t r) : Untouched t r₁ := by
  obtain ⟨rfl, stats, plans⟩ := before
  cases gathers with
  | pass => exact ⟨rfl, stats, plans⟩
  | @edit cr f below pos d ran _ step =>
      have planned := planClass_of_silent silent step.here settings step.resolved
      rw [runClass_of_no_groups planned rfl] at ran
      obtain rfl := Except.ok.inj (Except.ok.inj ran)
      refine ⟨rfl, by simp [stats, Stats.add], fun p member => ?_⟩
      rcases List.mem_append.mp member with old | new
      · exact plans p old
      · rw [List.mem_singleton.mp new]
        exact ⟨rfl, rfl⟩

theorem exists_runClasses (settings : Settings) {t : Tree} (conforms : t.Conforms)
    (silent : ¬ t.MentionsType isStringType) :
    ∃ r, runClasses settings t = .ok r ∧ Untouched t r := by
  obtain ⟨f, shaped⟩ := conforms
  obtain ⟨file, named⟩ := unitName_eq ⟨f, shaped⟩
  have listed := classes_eq shaped
  obtain ⟨r, run, records⟩ := runClasses_records settings file (r := { tree := t }) _ ⟨f, shaped⟩
    listed fun _ member => member
  refine ⟨r, by rw [runClasses, named, ok_bind, listed, ok_bind, run], ?_⟩
  exact @Records.preserves _ _ (fun _ r => Untouched t r)
    (fun gathers before => gathers.untouched silent before) _ _ _ records [] ⟨rfl, rfl, by simp⟩

theorem not_mentionsType_empty (accepts : Text → Bool) : ¬ Tree.MentionsType {} accepts := by
  rintro ⟨id, n, _, _, held, _⟩
  exact held.ne_zero (Nat.le_zero.mp held.le_size)

/-- The gate of a run is open exactly if a node of the unit mentions the string type, and then all
classes are run on.  If it is closed, every resolved class has a plan without groups and without
skipped values, whatever the settings are, and a run on all classes would leave the unit alone as
the run does. -/
theorem closed_gate_loses_nothing {codec : Codec} {bytes : List UInt8} {doc : Document}
    (accepted : Document.read codec bytes = .ok doc) {t : Tree} (member : t ∈ doc.trees) :
    ∃ uses, t.usesType isStringType t.root = .ok uses ∧
      (uses = true ↔ t.MentionsType isStringType) ∧
      (uses = true → ∀ settings, runUnit settings t = runClasses settings t) ∧
      (uses = false → ∀ settings,
        (∀ c pos d, t.Holds c ⟨pos, .classDecl d⟩ → d.fqn ≠ "" → planClass t settings c =
          .ok (.ok { classId := c, fqn := d.fqn, groups := [], skipped := [] })) ∧
        runUnit settings t = .ok { tree := t } ∧
        ∃ r, runClasses settings t = .ok r ∧ r.tree = t ∧ r.stats = {} ∧
          ∀ p ∈ r.plans, p.groups = [] ∧ p.skipped = []) := by
  rcases empty_or_compact_of_read accepted member with rfl | compact
  · refine ⟨false, rfl, by simp [not_mentionsType_empty], by simp, fun _ settings => ⟨?_, rfl, ?_⟩⟩
    · intro c pos d held
      exact absurd (Nat.le_zero.mp held.le_size) held.ne_zero
    · exact ⟨{ tree := {} }, rfl, rfl, rfl, by simp⟩
  obtain ⟨f, shaped⟩ := compact.conforms
  have gate := usesType_eq shaped isStringType
  have mentioned : t.usesType isStringType t.root = .ok true ↔ t.MentionsType isStringType :=
    usesType_iff_mentionsType shaped (by decide)
  rw [gate, Except.ok.injEq] at mentioned
  refine ⟨_, gate, mentioned, fun opened settings => runUnit_of_uses (opened ▸ gate),
    fun closed settings => ?_⟩
  have silent : ¬ t.MentionsType isStringType := by simp [← mentioned, closed]
  obtain ⟨r, run, tree, stats, plans⟩ := exists_runClasses settings compact.conforms silent
  refine ⟨fun c pos d held resolved => ?_, ?_, r, run, tree, stats, plans⟩
  · have inUnit := shaped.below_root.mp (compact.below_root held)
    obtain ⟨below, here⟩ := Shaped.exists_classIn shaped inUnit held
    exact planClass_of_silent silent here settings resolved
  · rw [runUnit, gate, closed]
    rfl

/-- A class that passes a literal of another type than the string type to a call twice, with an
unresolved class in it. -/
def silentUnit : Tree where
  root := 8
  nodes := #[
    some { form := .literal { value := "on", type := "Label" } },
    some { form := .literal { value := "on", type := "Label" } },
    some { form := .call 0 "join" [1, 2] "Label" },
    some { form := .namedVar "x" 3 },
    some { form := .varDecl { mods := .ofList [.final], type := "Label", vars := [4] } },
    some { form := .classDecl { name := "B" } },
    some { form := .classDecl { name := "A", fqn := "A", members := [5, 6] } },
    some { form := .unit { name := "A.java", classes := [7] } }]

theorem silentUnit_loses_nothing :
    silentUnit.usesType isStringType silentUnit.root = .ok false ∧
      ¬ silentUnit.MentionsType isStringType ∧
      planClass silentUnit {} 7 = .ok (.ok { classId := 7, fqn := "A" }) ∧
      ∃ r, runClasses {} silentUnit = .ok r ∧ r.tree = silentUnit ∧ r.stats = {} := by
  have accepted := read_writtenUnit (t := silentUnit) (by decide +kernel)
  have closed : silentUnit.usesType isStringType silentUnit.root = .ok false :=
    eq_ok_of_toOption (by decide +kernel)
  obtain ⟨uses, gate, mentioned, _, nothing⟩ :=
    closed_gate_loses_nothing accepted (List.mem_singleton.mpr rfl)
  obtain rfl : uses = false := Except.ok.inj (gate.symm.trans closed)
  obtain ⟨plans, _, r, run, tree, stats, _⟩ := nothing rfl {}
  exact ⟨closed, by simpa using mentioned.symm, plans 7 {} _ rfl (by decide), r, run, tree, stats⟩

end LiteralHoist.Consolidate
