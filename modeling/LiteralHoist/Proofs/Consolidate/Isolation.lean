import LiteralHoist.Proofs.Consolidate.Qualifying
import LiteralHoist.Proofs.Consolidate.Unresolved

/-!
# Unresolved classes do not disturb the others

A class whose type was not resolved is reported and left alone.  The other classes, around it or
inside of it, are run on as if it were not there.
-/

set_option autoImplicit false

namespace LiteralHoist.Report

open LiteralHoist.Consolidate

theorem ofUnresolved_injective (file : Text) {e e' : Unresolved}
    (same : (Diagnostic.ofUnresolved file e).toNotice =
      (Diagnostic.ofUnresolved file e').toNotice) : e = e' := by
  simp only [Diagnostic.ofUnresolved, Notice.mk.injEq, true_and] at same
  obtain ⟨pos, message⟩ := same
  have octets := congrArg Text.octets message
  simp only [Unresolved.message, Text.octets_append, List.append_cancel_right_eq,
    List.append_cancel_left_eq] at octets
  obtain ⟨_, ⟨_⟩⟩ := e
  obtain ⟨_, ⟨_⟩⟩ := e'
  simp_all

/-- An unresolved class is added unless one with its place and name was reported. -/
theorem entries_reportIn_unresolved {ds : Diagnostics} {file : Text} {reported : List Unresolved}
    (entries : ds.entries = reported.map (.ofUnresolved file)) (e : Unresolved) :
    (ds.reportIn file (.unresolved e)).entries =
      (if e ∈ reported then reported else reported ++ [e]).map (.ofUnresolved file) := by
  have known : (ds.entries.any fun d => d.toNotice == (Diagnostic.ofUnresolved file e).toNotice) =
      decide (e ∈ reported) := by
    rw [entries, List.any_map, Bool.eq_iff_iff, List.any_eq_true, decide_eq_true_iff]
    constructor
    · rintro ⟨e', member, same⟩
      exact ofUnresolved_injective file (by simpa using same) ▸ member
    · exact fun member => ⟨e, member, by simp⟩
  simp only [Diagnostics.reportIn, Reported.diagnostics, List.foldl_cons, List.foldl_nil,
    Diagnostics.insert, known, decide_eq_true_iff]
  split
  · exact entries
  · simp [entries]

end LiteralHoist.Report

namespace LiteralHoist.Consolidate

open LiteralHoist.Source LiteralHoist.Document LiteralHoist.Report

def MentionsString (t : Tree) : Prop :=
  ∃ id n, t.Below t.root id ∧ t.Holds id n ∧ isStringType n.form.mentionedType = true

/-- A class whose type was not resolved is reported by its place and name. -/
def UnresolvedAs (t : Tree) (c : NodeId) (e : Unresolved) : Prop :=
  ∃ d, t.Holds c ⟨e.pos, .classDecl d⟩ ∧ d.fqn = "" ∧ d.name = e.className

def RefersInto (t : Tree) (fqn : Text) (id : NodeId) : Prop :=
  ∃ pos name type field, t.Holds id ⟨pos, .ident name type (some field)⟩ ∧ field.owner = fqn

/-- Single classes are run on one after the other, each on the tree that the one before left. -/
inductive InTurn (settings : Settings) : Tree → List Plan → Tree → Prop where
  | done (t : Tree) : InTurn settings t [] t
  | run {t t' : Tree} {r : ClassRun} {plans : List Plan}
      (ran : runClass settings t r.plan.classId = .ok (.ok r))
      (later : InTurn settings r.tree plans t') : InTurn settings t (r.plan :: plans) t'

/-- A plan that was made and carried out between two trees decides every repeated value of its
class, and its occurrences refer to fields of the class. -/
structure CarriedOut (settings : Settings) (t t' : Tree) (p : Plan) : Prop where
  class_ : ∃ pos d, t.Holds p.classId ⟨pos, .classDecl d⟩ ∧ d.fqn = p.fqn
  values : ∃ found, repeated t settings p.classId = .ok found ∧
    (p.groups.map Group.occurrences ++ p.skipped.map Skip.occurrences).Perm found
  sites : ∀ g ∈ p.groups, ∀ id ∈ g.sites, RefersInto t' p.fqn id

theorem usesType_iff_mentionsString {t : Tree} {f : Forest} (shaped : Shaped t f) :
    t.usesType isStringType t.root = .ok true ↔ MentionsString t := by
  rw [usesType_iff shaped]
  constructor
  · rintro ⟨id, n, inUnit, held, _, isString⟩
    exact ⟨id, n, inUnit, held, isString⟩
  · rintro ⟨id, n, inUnit, held, isString⟩
    refine ⟨id, n, inUnit, held, fun nothing => ?_, isString⟩
    rw [nothing] at isString
    exact absurd isString (by decide)

/-! ## Steps -/

section Step
variable {settings : Settings} {t t' : Tree} {f below : Forest} {c : NodeId} {pos : Position}
  {d : ClassDecl}

theorem ClassStep.unresolved_iff (step : ClassStep settings t t' f c below pos d)
    (compact : t.Compact) {x : NodeId} {xPos : Position} {dx : ClassDecl}
    (unresolved : dx.fqn = "") :
    t'.Holds x ⟨xPos, .classDecl dx⟩ ↔ t.Holds x ⟨xPos, .classDecl dx⟩ := by
  constructor
  · intro held'
    obtain ⟨dx₀, _, held, name⟩ := step.class_before ((step.compact compact).below_root held') held'
    obtain ⟨_, rfl⟩ := (step.unresolved held (name ▸ unresolved)).class_unique held'
    exact held
  · exact fun held => step.unresolved held unresolved

/-- What belongs to an unresolved class is no occurrence of a group. -/
theorem ClassStep.literal_of_unresolved (step : ClassStep settings t t' f c below pos d)
    {x : NodeId} {xPos : Position} {dx : ClassDecl} (inside : t.Below t.root x)
    (held : t.Holds x ⟨xPos, .classDecl dx⟩) (unresolved : dx.fqn = "") {id : NodeId}
    {litPos : Position} {lit : Literal} (owned : t.OwnedBy x id)
    (literal : t.Holds id ⟨litPos, .literal lit⟩) : t'.Holds id ⟨litPos, .literal lit⟩ := by
  have other : x ≠ c := by
    rintro rfl
    obtain ⟨_, rfl⟩ := held.class_unique step.here.held
    exact step.resolved unresolved
  exact step.edited.literal_kept step.here step.fits literal (step.fits.not_site_of_other step.here
    (step.here.shaped.below_root.mp inside) held other owned)

theorem ClassStep.repeated_other (step : ClassStep settings t t' f c below pos d) {x : NodeId}
    {xPos : Position} {dx : ClassDecl} (inside : t.Below t.root x)
    (held : t.Holds x ⟨xPos, .classDecl dx⟩) (other : x ≠ c) :
    repeated t' settings x = repeated t settings x := by
  obtain ⟨within, there⟩ :=
    Shaped.exists_classIn step.here.shaped (step.here.shaped.below_root.mp inside) held
  rw [there.repeated_eq, (step.classIn_other there other).repeated_eq, repeatedIn, repeatedIn,
    step.occurrencesIn_other there other]

def identOwner : Form → Option Text
  | .ident _ _ field => field.map FieldSymbol.owner
  | _ => none

theorem refersInto_iff {fqn : Text} {id : NodeId} :
    RefersInto t fqn id ↔ ∃ n, t.Holds id n ∧ identOwner n.form = some fqn := by
  constructor
  · rintro ⟨pos, name, type, field, held, rfl⟩
    exact ⟨_, held, rfl⟩
  · rintro ⟨⟨pos, form⟩, held, refers⟩
    cases form with
    | ident name type symbol =>
        obtain ⟨field, rfl, owner⟩ := Option.map_eq_some_iff.mp refers
        exact ⟨pos, name, type, field, held, owner⟩
    | _ => simp [identOwner] at refers

theorem ClassStep.refersInto (step : ClassStep settings t t' f c below pos d) {fqn : Text}
    {id : NodeId} (refers : RefersInto t fqn id) : RefersInto t' fqn id := by
  rw [refersInto_iff] at refers ⊢
  obtain ⟨n, held, owner⟩ := refers
  rcases step.edited.old step.here step.fits held with
    ⟨_, rfl⟩ | ⟨_, _, _, _, _, rfl, _⟩ | ⟨_, _, kept⟩
  · simp [identOwner] at owner
  · simp [identOwner] at owner
  · refine ⟨_, kept, ?_⟩
    rw [← owner, reform]
    refine relabelAll_keeps identOwner (fun name form => ?_) (fun name form => ?_) _ id n.form
    · cases form <;> rfl
    · cases form <;> simp [identOwner, renamedForm, Function.comp_def]

end Step

/-! ## Reports -/

structure Reports (t : Tree) (file : Text) (seen : List NodeId) (r : UnitRun) : Prop where
  compact : r.tree.Compact
  unresolved : ∀ {c : NodeId} {pos : Position} {d : ClassDecl}, d.fqn = "" →
    (r.tree.Holds c ⟨pos, .classDecl d⟩ ↔ t.Holds c ⟨pos, .classDecl d⟩)
  errors : ∃ reported : List Unresolved, reported.Nodup ∧
    (∀ e, e ∈ reported ↔ ∃ c ∈ seen, UnresolvedAs t c e) ∧
    r.errors.entries = reported.map (.ofUnresolved file)

theorem Gathers.reports {settings : Settings} {file : Text} {t : Tree} {seen : List NodeId}
    {r r₁ : UnitRun} {c : NodeId} (gathers : Gathers settings file r c r₁)
    (before : Reports t file seen r) : Reports t file (seen ++ [c]) r₁ := by
  obtain ⟨reported, nodup, members, entries⟩ := before.errors
  cases gathers with
  | @pass pos d held unresolved =>
      refine ⟨before.compact, before.unresolved, _, ?_, fun e => ?_,
        entries_reportIn_unresolved entries ⟨pos, d.name⟩⟩
      · split
        · exact nodup
        · rename_i new
          rw [← List.concat_eq_append]
          exact nodup.concat new
      · have this : UnresolvedAs t c e ↔ e = ⟨pos, d.name⟩ := by
          have there := (before.unresolved unresolved).mp held
          constructor
          · rintro ⟨d', held', _, name⟩
            obtain ⟨rfl, rfl⟩ := held'.class_unique there
            rw [name]
          · rintro rfl
            exact ⟨d, there, unresolved, rfl⟩
        have either : (∃ x ∈ seen ++ [c], UnresolvedAs t x e) ↔
            e ∈ reported ∨ e = ⟨pos, d.name⟩ := by
          simp [members, or_and_right, exists_or, this]
        rw [either]
        split
        · rename_i known
          exact ⟨.inl, fun reported => reported.elim id fun same => same ▸ known⟩
        · simp
  | @edit cr f below pos d ran plan step =>
      refine ⟨step.compact before.compact, fun unresolved =>
        (step.unresolved_iff before.compact unresolved).trans (before.unresolved unresolved),
        reported, nodup, fun e => ?_, entries⟩
      have resolved : ¬ UnresolvedAs t c e := by
        rintro ⟨d', held', unresolved, _⟩
        have held := (before.unresolved unresolved).mpr held'
        obtain ⟨_, rfl⟩ := held.class_unique step.here.held
        exact step.resolved unresolved
      simp [members, or_and_right, exists_or, resolved]

/-! ## Courses -/

section Course
variable {settings : Settings} {t t' : Tree} {classes : List NodeId} {plans : List Plan}

theorem Records.inTurn {file : Text} {r r' : UnitRun}
    (records : Records settings file r classes r') :
    ∃ plans, r'.plans = r.plans ++ plans ∧ InTurn settings r.tree plans r'.tree := by
  induction records with
  | done r => exact ⟨[], by simp, .done r.tree⟩
  | next first _ ih =>
      obtain ⟨plans, plans_eq, inTurn⟩ := ih
      cases first with
      | pass => exact ⟨plans, plans_eq, inTurn⟩
      | @edit cr _ _ _ _ ran plan step =>
          refine ⟨cr.plan :: plans, ?_, .run ?_ inTurn⟩
          · rw [plans_eq, List.append_assoc, List.singleton_append]
          · rw [plan]
            exact ran

/-- A course has one plan for each class that is not unresolved, in the order of the classes. -/
theorem Course.classIds (course : Course settings t classes plans t') (compact : t.Compact) :
    (plans.map Plan.classId).Sublist classes ∧
      ∀ c, c ∈ plans.map Plan.classId ↔ c ∈ classes ∧ ¬ UnresolvedAt t c := by
  induction course with
  | done => simp
  | @pass t t' x pos d rest plans held unresolved later ih =>
      obtain ⟨sublist, members⟩ := ih compact
      refine ⟨sublist.cons _, fun c => ?_⟩
      have passed : c = x → UnresolvedAt t c := fun same => ⟨pos, d, same ▸ held, unresolved⟩
      rw [members c, List.mem_cons, or_and_right, or_iff_right]
      exact fun taken => taken.2 (passed taken.1)
  | @edit t u t' f below x pos d rest plans step later ih =>
      obtain ⟨sublist, members⟩ := ih (step.compact compact)
      refine ⟨sublist.cons_cons _, fun c => ?_⟩
      have resolved : c = x → ¬ UnresolvedAt t c := by
        rintro rfl ⟨pos', d', held', unresolved⟩
        obtain ⟨_, rfl⟩ := held'.class_unique step.here.held
        exact step.resolved unresolved
      rw [List.map_cons, List.mem_cons, members c, step.unresolvedAt_iff compact, List.mem_cons,
        or_and_right]
      exact or_congr_left ⟨fun same => ⟨same, resolved same⟩, And.left⟩

theorem Course.unresolved_kept (course : Course settings t classes plans t') {c : NodeId}
    {pos : Position} {d : ClassDecl} (held : t.Holds c ⟨pos, .classDecl d⟩)
    (unresolved : d.fqn = "") : t'.Holds c ⟨pos, .classDecl d⟩ :=
  course.preserves (fun u => u.Holds c ⟨pos, .classDecl d⟩)
    (fun step before => step.unresolved before unresolved) held

theorem Course.literal_of_unresolved (course : Course settings t classes plans t') {c : NodeId}
    {pos : Position} {d : ClassDecl} (inUnit : t.Below t.root c)
    (held : t.Holds c ⟨pos, .classDecl d⟩) (unresolved : d.fqn = "") {id : NodeId}
    {litPos : Position} {lit : Literal} (owned : t.OwnedBy c id)
    (literal : t.Holds id ⟨litPos, .literal lit⟩) : t'.Holds id ⟨litPos, .literal lit⟩ :=
  (course.preserves (fun u => u.Below u.root c ∧ u.Holds c ⟨pos, .classDecl d⟩ ∧ u.OwnedBy c id ∧
      u.Holds id ⟨litPos, .literal lit⟩)
    (fun step ⟨inUnit, held, owned, literal⟩ => ⟨step.below_root inUnit,
      step.unresolved held unresolved, step.owned owned,
      step.literal_of_unresolved inUnit held unresolved owned literal⟩)
    ⟨inUnit, held, owned, literal⟩).2.2.2

/-- Every plan of a course was made for the values that the tree had at the start, and is carried
out at the end. -/
theorem Course.carriedOut (course : Course settings t classes plans t') (compact : t.Compact)
    (once : classes.Nodup) : ∀ p ∈ plans, CarriedOut settings t t' p := by
  induction course with
  | done => simp
  | pass _ _ _ ih => exact ih compact once.of_cons
  | @edit t u t' f below x pos d rest plans step later ih =>
      have compact' := step.compact compact
      rw [List.nodup_cons] at once
      intro p inPlans
      rcases List.mem_cons.mp inPlans with rfl | inLater
      · refine ⟨⟨pos, d, step.here.held, rfl⟩, ⟨_, step.here.repeated_eq settings,
          (planning_classPlan t settings x below d).perm⟩, fun g inPlan id site => ?_⟩
        obtain ⟨litPos, lit, literal, _⟩ := step.fits.literal g inPlan id site
        obtain ⟨field, reference, owner, _⟩ :=
          step.edited.site g inPlan id site litPos lit literal
        exact later.preserves (RefersInto · d.fqn id) (fun step before => step.refersInto before)
          ⟨litPos, g.name, lit.type, field, reference, owner⟩
      · obtain ⟨⟨pPos, dp, held', fqn⟩, ⟨found, values, perm⟩, sites⟩ :=
          ih compact' once.2 p inLater
        have other : p.classId ≠ x := by
          have taken := ((later.classIds compact').2 p.classId).mp (List.mem_map_of_mem inLater)
          exact fun same => once.1 (same ▸ taken.1)
        obtain ⟨d₀, inUnit, held, name⟩ :=
          step.class_before (compact'.below_root held') held'
        refine ⟨⟨pPos, d₀, held, name ▸ fqn⟩, ⟨found, ?_, perm⟩, sites⟩
        rw [← step.repeated_other inUnit held other, values]

end Course

theorem unitName_of_unit {t : Tree} {pos : Position} {u : UnitDecl}
    (held : t.Holds t.root ⟨pos, .unit u⟩) : unitName t = .ok u.name := by
  simp [unitName, Tree.unit?, held.node?_eq, ok_bind, pure_eq_ok]

theorem not_mentionsString_empty : ¬ MentionsString {} := by
  rintro ⟨id, n, _, held, _⟩
  exact held.ne_zero (Nat.le_zero.mp held.le_size)

/-- A run on a unit reports nothing exactly if the unit does not mention the string type, and then
does nothing, or has no unresolved class.  Else it makes one plan for each resolved class, in source
order, as runs on these classes alone would, and carries it out.  It reports the unresolved classes,
once for each place and name, and leaves them and the literals that belong to them alone. -/
theorem unresolved_classes_isolated {codec : Codec} {bytes : List UInt8} {doc : Document}
    (accepted : Document.read codec bytes = .ok doc) {t : Tree} (member : t ∈ doc.trees)
    (settings : Settings) :
    ∃ r, runUnit settings t = .ok r ∧
      (r.errors.isEmpty = true ↔ ¬ MentionsString t ∨ ∀ c, ¬ UnresolvedAt t c) ∧
      (¬ MentionsString t → r = { tree := t }) ∧
      (MentionsString t → ∃ (whole : Forest) (unitPos : Position) (u : UnitDecl)
          (reported : List Unresolved),
        whole.roots = [t.root] ∧ whole.Follows t ∧ whole.ids.Nodup ∧
        (r.plans.map Plan.classId).Sublist whole.ids ∧
        (∀ c, c ∈ r.plans.map Plan.classId ↔ t.IsClass c ∧ ¬ UnresolvedAt t c) ∧
        t.Holds t.root ⟨unitPos, .unit u⟩ ∧ reported.Nodup ∧
        (∀ e, e ∈ reported ↔ ∃ c, UnresolvedAs t c e) ∧
        r.errors.entries = reported.map (.ofUnresolved u.name) ∧
        (∀ c pos d, t.Holds c ⟨pos, .classDecl d⟩ → d.fqn = "" →
          r.tree.Holds c ⟨pos, .classDecl d⟩ ∧
          ∀ id litPos lit, t.OwnedBy c id → t.Holds id ⟨litPos, .literal lit⟩ →
            r.tree.Holds id ⟨litPos, .literal lit⟩) ∧
        InTurn settings t r.plans r.tree ∧ ∀ p ∈ r.plans, CarriedOut settings t r.tree p) := by
  rcases empty_or_compact_of_read accepted member with rfl | compact
  · refine ⟨_, runUnit_of_no_root settings rfl, ?_, fun _ => rfl, fun mentioned =>
      absurd mentioned not_mentionsString_empty⟩
    simp [Diagnostics.isEmpty, not_mentionsString_empty]
  obtain ⟨f, shaped⟩ := compact.conforms
  obtain ⟨r, run, course⟩ := runUnit_records settings ⟨f, shaped⟩
  have reports := runUnit_reports compact run
  rw [usesType_iff_mentionsString shaped, not_and_or, not_exists] at reports
  refine ⟨r, run, reports, fun silent => ?_, fun mentioned => ?_⟩
  · rcases course with ⟨_, alone⟩ | ⟨_, _, gate, _⟩
    · exact alone
    · exact absurd ((usesType_iff_mentionsString shaped).mp gate) silent
  have gate := (usesType_iff_mentionsString shaped).mpr mentioned
  rcases course with ⟨closed, _⟩ | ⟨file, all, _, named, listed, records⟩
  · simp [gate] at closed
  obtain ⟨unitPos, u, unit⟩ := unit_of_read accepted member (shaped.root_holds.choose_spec.ne_zero)
  obtain rfl : file = u.name := Except.ok.inj (named.symm.trans (unitName_of_unit unit))
  obtain ⟨plans, plans_eq, course⟩ := records.course
  obtain ⟨plans', plans_eq', inTurn⟩ := records.inTurn
  rw [List.nil_append] at plans_eq plans_eq'
  subst plans_eq plans_eq'
  have nodup := classes_nodup shaped listed
  obtain ⟨sublist, classIds⟩ := course.classIds compact
  have start : Reports t u.name [] { tree := t } :=
    ⟨compact, fun _ => Iff.rfl, [], .nil, by simp, rfl⟩
  obtain ⟨reported, once, members, entries⟩ :=
    (records.preserves (Reports t u.name) Gathers.reports start).errors
  refine ⟨f, unitPos, u, reported, shaped.roots_eq, shaped.follows, shaped.nodup, ?_, ?_, unit,
    once, ?_, entries, ?_, inTurn, course.carriedOut compact nodup⟩
  · rw [classes_eq shaped] at listed
    exact sublist.trans (Except.ok.inj listed ▸ List.filter_sublist)
  · intro c
    rw [classIds, mem_classes_iff compact listed]
  · intro e
    rw [members, List.nil_append]
    constructor
    · rintro ⟨c, _, unresolved⟩
      exact ⟨c, unresolved⟩
    · rintro ⟨c, d, held, unresolved⟩
      exact ⟨c, (mem_classes_iff compact listed).mpr ⟨_, d, held⟩, d, held, unresolved⟩
  · intro c pos d held unresolved
    exact ⟨course.unresolved_kept held unresolved, fun id litPos lit owned literal =>
      course.literal_of_unresolved (compact.below_root held) held unresolved owned literal⟩

/-- A resolved class with two unresolved classes of the same place and name in it, of which the
first has a resolved class in it; the first three have a literal twice each. -/
def layeredUnit : Tree where
  root := 20
  nodes := #[
    some { form := .literal { value := "on", type := "String" } },
    some { form := .literal { value := "on", type := "String" } },
    some { form := .binary "+" 1 2 "" },
    some { form := .namedVar "x" 3 },
    some { form := .varDecl { mods := .ofList [.final], type := "String", vars := [4] } },
    some { form := .literal { value := "on", type := "String" } },
    some { form := .literal { value := "on", type := "String" } },
    some { form := .binary "+" 6 7 "" },
    some { form := .namedVar "y" 8 },
    some { form := .varDecl { mods := .ofList [.final], type := "String", vars := [9] } },
    some { form := .literal { value := "off", type := "String" } },
    some { form := .literal { value := "off", type := "String" } },
    some { form := .binary "+" 11 12 "" },
    some { form := .namedVar "z" 13 },
    some { form := .varDecl { mods := .ofList [.final], type := "String", vars := [14] } },
    some { form := .classDecl { name := "C", fqn := "C", members := [15] } },
    some { form := .classDecl { name := "B", members := [10, 16] } },
    some { form := .classDecl { name := "B" } },
    some { form := .classDecl { name := "A", fqn := "A", members := [5, 17, 18] } },
    some { form := .unit { name := "A.java", classes := [19] } }]

theorem layeredUnit_isolated :
    ∃ r, runUnit {} layeredUnit = .ok r ∧ r.errors.isEmpty = false ∧
      r.plans.map Plan.classId = [19, 16] ∧
      r.errors.entries = [.ofUnresolved "A.java" ⟨{}, "B"⟩] ∧
      r.tree.Holds 17 ⟨{}, .classDecl { name := "B", members := [10, 16] }⟩ ∧
      r.tree.Holds 6 ⟨{}, .literal { value := "on", type := "String" }⟩ ∧
      RefersInto r.tree "C" 11 := by
  have accepted := read_writtenUnit (t := layeredUnit) (by decide +kernel)
  have inDoc : layeredUnit ∈ [layeredUnit] := List.mem_singleton.mpr rfl
  have literal : layeredUnit.Holds 6 ⟨{}, .literal { value := "on", type := "String" }⟩ := rfl
  have unresolved : layeredUnit.Holds 17
      ⟨{}, .classDecl { name := "B", members := [10, 16] }⟩ := rfl
  obtain ⟨r, run, _, _, result⟩ := unresolved_classes_isolated accepted inDoc {}
  have mentioned : MentionsString layeredUnit :=
    ⟨6, _, (compact_of_held accepted inDoc literal).below_root literal, literal, by decide⟩
  obtain ⟨_, _, _, _, _, _, _, _, _, _, _, _, _, kept, _, carriedOut⟩ := result mentioned
  have computed : (runUnit {} layeredUnit).toOption.map (fun r => (r.errors.entries,
      r.plans.map fun p => (p.classId, p.fqn, p.groups.map Group.sites))) =
      some ([Diagnostic.ofUnresolved "A.java" ⟨{}, "B"⟩],
        ([(19, "A", [[1, 2]]), (16, "C", [[11, 12]])] : List (NodeId × Text × List (List NodeId))))
      := by decide +kernel
  rw [run, Except.toOption, Option.map_some, Option.some_inj, Prod.mk.injEq] at computed
  obtain ⟨entries, plans⟩ := computed
  obtain ⟨nestedKept, literalKept⟩ := kept 17 _ _ unresolved rfl
  have field : layeredUnit.OwnedBy 17 10 := .direct ⟨_, unresolved, by decide⟩
  have variable_ : layeredUnit.OwnedBy 17 9 :=
    field.deeper (not_isClass_of_holds (n := ⟨{}, .varDecl
      { mods := .ofList [.final], type := "String", vars := [9] }⟩) rfl (by decide))
      ⟨_, rfl, by decide⟩
  have initial : layeredUnit.OwnedBy 17 8 :=
    variable_.deeper (not_isClass_of_holds (n := ⟨{}, .namedVar "y" 8⟩) rfl (by decide))
      ⟨_, rfl, by decide⟩
  have owned : layeredUnit.OwnedBy 17 6 :=
    initial.deeper (not_isClass_of_holds (n := ⟨{}, .binary "+" 6 7 ""⟩) rfl (by decide))
      ⟨_, rfl, by decide⟩
  obtain ⟨p, inPlans, sites⟩ := List.mem_map.mp (show (16, ("C" : Text), [[11, 12]]) ∈ r.plans.map
    fun p => (p.classId, p.fqn, p.groups.map Group.sites) by simp [plans])
  simp only [Prod.mk.injEq] at sites
  obtain ⟨g, inPlan, isSite⟩ := List.mem_map.mp (show [11, 12] ∈ p.groups.map Group.sites by
    simp [sites.2.2])
  refine ⟨r, run, by simp [Diagnostics.isEmpty, entries], ?_, entries, nestedKept,
    literalKept 6 _ _ owned literal, ?_⟩
  · have ids := congrArg (List.map Prod.fst) plans
    simpa [Function.comp_def] using ids
  · rw [← sites.2.1]
    exact (carriedOut p inPlans).sites g inPlan 11 (by simp [isSite])

end LiteralHoist.Consolidate
