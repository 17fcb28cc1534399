import LiteralHoist.Proofs.Consolidate.Safety
import LiteralHoist.Proofs.Document.Census

/-!
# The counts of a run

A run counts its edits.  Each group that is carried out is counted as one constant that is new,
reused or renamed, and each of its occurrences as replaced.  As every occurrence was a literal and
becomes a reference, and every new constant is one more literal, the counts tell how the number of
literals changes.  A group has two occurrences or more, so a run that edits the unit leaves fewer
literals, and what is written for the unit is not the same as before.
-/

set_option autoImplicit false

namespace LiteralHoist.Consolidate

open LiteralHoist.Source LiteralHoist.Document

def literals (t : Tree) (keep : Literal → Prop) : Set NodeId :=
  {id | t.Below t.root id ∧ ∃ pos lit, t.Holds id ⟨pos, .literal lit⟩ ∧ keep lit}

/-- The counts of a run agree with the groups that it carried out. -/
structure Stats.Counts (s : Stats) (groups : List Group) : Prop where
  constants : s.inserted + s.reused + s.renamed = groups.length
  sites : s.replaced = (groups.flatMap Group.sites).length
  twice : 2 * groups.length ≤ s.replaced

theorem Stats.Counts.add {a b : Stats} {groups more : List Group} (first : a.Counts groups)
    (second : b.Counts more) : (a.add b).Counts (groups ++ more) := by
  obtain ⟨constants, sites, twice⟩ := first
  obtain ⟨constants', sites', twice'⟩ := second
  refine ⟨?_, ?_, ?_⟩ <;>
    simp only [Stats.add, List.length_append, List.flatMap_append] <;> omega

theorem Stats.Counts.changed_iff {s : Stats} {groups : List Group} (counts : s.Counts groups) :
    s.changed = true ↔ 0 < s.replaced := by
  obtain ⟨constants, _, twice⟩ := counts
  simp only [Stats.changed, Bool.or_eq_true, decide_eq_true_iff]
  omega

theorem total_append (xs ys : List Nat) : total (xs ++ ys) = total xs + total ys := by
  induction xs with
  | nil => simp [total]
  | cons x xs ih => simp [total, ih, Nat.add_assoc]

theorem statsOf_append (groups more : List Group) (renamings others : List Renaming) :
    statsOf (groups ++ more) (renamings ++ others) =
      (statsOf groups renamings).add (statsOf more others) := by
  simp [statsOf, Stats.add, countAction, total_append]

section Groups
variable {t : Tree} {c : NodeId} {below : Forest} {fqn : Text}

theorem counts_statsOf_single {g : Group}
    (known : g.action = .insert ∨ g.action = .reuse ∨ g.action = .rename)
    (twice : 2 ≤ g.sites.length) : (statsOf [g] (renamingIn t c below fqn g)).Counts [g] := by
  refine ⟨?_, by simp [statsOf, total], by simpa [statsOf, total] using twice⟩
  rcases known with action | action | action <;>
    simp [statsOf, countAction, renamingIn, action]

theorem counts_statsOf {groups : List Group}
    (known : ∀ g ∈ groups, g.action = .insert ∨ g.action = .reuse ∨ g.action = .rename)
    (twice : ∀ g ∈ groups, 2 ≤ g.sites.length) :
    (statsOf groups (renamingsIn t c below fqn groups)).Counts groups := by
  induction groups with
  | nil => exact ⟨rfl, rfl, Nat.le_refl 0⟩
  | cons g rest ih =>
      rw [List.forall_mem_cons] at known twice
      have split : statsOf (g :: rest) (renamingsIn t c below fqn (g :: rest)) =
          (statsOf [g] (renamingIn t c below fqn g)).add
            (statsOf rest (renamingsIn t c below fqn rest)) := statsOf_append [g] rest _ _
      rw [split]
      exact (counts_statsOf_single known.1 twice.1).add (ih known.2 twice.2)

end Groups

section Step
variable {settings : Settings} {t t' : Tree} {f below : Forest} {c : NodeId} {pos : Position}
  {d : ClassDecl} {cr : ClassRun}

theorem ClassStep.stats_eq (step : ClassStep settings t t' f c below pos d)
    (ran : runClass settings t c = .ok (.ok cr)) :
    cr.stats = statsOf (classPlan t settings c below d).groups
      (renamingsIn t c below d.fqn (classPlan t settings c below d).groups) := by
  obtain ⟨_, applied, _⟩ := applyPlan_counted step.here step.fits
    (p := classPlan t settings c below d) rfl rfl rfl
  rw [runClass, planClass_eq step.here settings step.resolved, ok_bind] at ran
  simp only [applied, ok_bind] at ran
  obtain rfl := Except.ok.inj (Except.ok.inj ran)
  rfl

theorem ClassStep.counts (step : ClassStep settings t t' f c below pos d)
    (ran : runClass settings t c = .ok (.ok cr)) :
    cr.stats.Counts (classPlan t settings c below d).groups := by
  rw [step.stats_eq ran]
  refine counts_statsOf step.fits.known fun g inPlan => ?_
  have enough := (group_of_classPlan inPlan).2
  simp only [threshold] at enough
  omega

def newInitials (t : Tree) (groups : List Group) : List NodeId :=
  (List.range (inserted groups).length).map fun i => t.size + 3 * i + 1

theorem nodup_newInitials (t : Tree) (groups : List Group) : (newInitials t groups).Nodup := by
  refine List.nodup_range.map fun i j same => ?_
  simpa using same

/-- After a step there are the literals that were no occurrences, and those of new constants. -/
theorem ClassStep.mem_literals_iff (step : ClassStep settings t t' f c below pos d)
    (compact : t.Compact) {keep : Literal → Prop} (strings : ∀ lit, lit.isString = true → keep lit)
    {id : NodeId} :
    id ∈ literals t' keep ↔
      (id ∈ literals t keep ∧ id ∉ (classPlan t settings c below d).groups.flatMap Group.sites) ∨
        id ∈ newInitials t (classPlan t settings c below d).groups := by
  constructor
  · rintro ⟨inUnit, litPos, lit, literal, kept⟩
    rcases List.mem_append.mp ((perm_ids_editedForest step.here _).subset
      (step.shaped.below_root.mp inUnit)) with fresh | old
    · obtain ⟨i, small, place⟩ := mem_newTrees fresh
      obtain ⟨g, _, _, initial, _, _, declared⟩ := step.edited.declared small
      rcases place with rfl | rfl | rfl
      · simpa using literal.unique declared.declaration
      · simpa using literal.unique declared.variable_
      · exact .inr (List.mem_map.mpr ⟨i, List.mem_range.mpr small, rfl⟩)
    · obtain ⟨⟨oldPos, form⟩, held⟩ := step.here.shaped.follows.holds old
      rcases step.edited.old step.here step.fits held with
        ⟨rfl, _⟩ | ⟨_, _, _, _, _, _, _, reference, _⟩ | ⟨_, outside, same⟩
      · simpa using literal.unique step.edited.class_
      · simpa using literal.unique reference
      · have kind : form.kind = .literal := by
          have after := congrArg (fun n => n.form.kind) (same.unique literal)
          rwa [reform, relabelAll_kind] at after
        rw [reform, relabelAll_unnamed _ id (by rw [kind]; rfl)] at same
        rw [same.unique literal] at held
        refine .inl ⟨⟨step.here.shaped.below_root.mpr old, litPos, lit, held, kept⟩, ?_⟩
        simpa using outside
  · rintro (⟨⟨_, litPos, lit, literal, kept⟩, outside⟩ | fresh)
    · have literal' := step.edited.literal_kept step.here step.fits literal (by simpa using outside)
      exact ⟨(step.compact compact).below_root literal', litPos, lit, literal', kept⟩
    · obtain ⟨i, small, rfl⟩ := List.mem_map.mp fresh
      obtain ⟨g, _, _, lit, isString, _, declared⟩ :=
        step.edited.declared (List.mem_range.mp small)
      exact ⟨(step.compact compact).below_root declared.initial, {}, lit, declared.initial,
        strings lit isString⟩

/-- A step takes as many literals away as there are occurrences, and adds one for each new
constant. -/
theorem ClassStep.encard_literals (step : ClassStep settings t t' f c below pos d)
    (compact : t.Compact) {keep : Literal → Prop}
    (strings : ∀ lit, lit.isString = true → keep lit) :
    (literals t' keep).encard + ((classPlan t settings c below d).groups.flatMap Group.sites).length
      = (literals t keep).encard + (inserted (classPlan t settings c below d).groups).length := by
  set groups := (classPlan t settings c below d).groups
  have sites : {id | id ∈ groups.flatMap Group.sites}.encard =
      (groups.flatMap Group.sites).length :=
    Forest.encard_setOf_mem step.fits.apart fun _ => Iff.rfl
  have new : {id | id ∈ newInitials t groups}.encard = (inserted groups).length := by
    rw [Forest.encard_setOf_mem (nodup_newInitials t groups) fun _ => Iff.rfl]
    simp [newInitials]
  have subset : {id | id ∈ groups.flatMap Group.sites} ⊆ literals t keep := by
    intro id site
    obtain ⟨g, inPlan, isSite⟩ := List.mem_flatMap.mp site
    obtain ⟨litPos, lit, literal, isString, _⟩ := step.fits.literal g inPlan id isSite
    exact ⟨compact.below_root literal, litPos, lit, literal, strings lit isString⟩
  have union : literals t' keep = (literals t keep \ {id | id ∈ groups.flatMap Group.sites}) ∪
      {id | id ∈ newInitials t groups} := by
    ext id
    exact step.mem_literals_iff compact strings
  have disjoint : Disjoint (literals t keep \ {id | id ∈ groups.flatMap Group.sites})
      {id | id ∈ newInitials t groups} := by
    rw [Set.disjoint_left]
    rintro id ⟨⟨_, _, _, literal, _⟩, _⟩ fresh
    obtain ⟨i, _, rfl⟩ := List.mem_map.mp fresh
    have inside := literal.le_size
    omega
  rw [union, Set.encard_union_eq disjoint, new, ← sites, add_right_comm,
    Set.encard_sdiff_add_encard_of_subset subset]

theorem ClassStep.tree_eq (step : ClassStep settings t t' f c below pos d)
    (ran : runClass settings t c = .ok (.ok cr)) (nothing : cr.stats.replaced = 0) :
    cr.tree = t := by
  have twice := (step.counts ran).twice
  have noGroups : (classPlan t settings c below d).groups = [] :=
    List.length_eq_zero_iff.mp (by omega)
  have alone := runClass_of_no_groups (planClass_eq step.here settings step.resolved) noGroups
  rw [ran] at alone
  rw [Except.ok.inj (Except.ok.inj alone)]

end Step

/-- The counts of a run tell what became of the tree that it started with. -/
structure Tallies (t : Tree) (r : UnitRun) : Prop where
  counts : r.stats.Counts (r.plans.flatMap Plan.groups)
  balance : ∀ {keep : Literal → Prop}, (∀ lit, lit.isString = true → keep lit) →
    (literals r.tree keep).encard + r.stats.replaced =
      (literals t keep).encard + r.stats.inserted
  unchanged : r.stats.replaced = 0 → r.tree = t

theorem Tallies.start (t : Tree) : Tallies t { tree := t } where
  counts := ⟨rfl, rfl, Nat.le_refl 0⟩
  balance _ := rfl
  unchanged _ := rfl

theorem Gathers.tallies {settings : Settings} {file : Text} {t : Tree} {r r₁ : UnitRun}
    {c : NodeId} (gathers : Gathers settings file r c r₁) (compact : r.tree.Compact)
    (before : Tallies t r) : r₁.tree.Compact ∧ Tallies t r₁ := by
  cases gathers with
  | pass => exact ⟨compact, before.counts, before.balance, before.unchanged⟩
  | @edit cr f below pos d ran plan step =>
      have counts := step.counts ran
      refine ⟨step.compact compact, ?_, fun {keep} strings => ?_, fun nothing => ?_⟩
      · simpa [plan] using before.counts.add counts
      · have one := step.encard_literals compact strings
        rw [← counts.sites] at one
        have inserted : cr.stats.inserted =
            (inserted (classPlan r.tree settings c below d).groups).length := by
          rw [step.stats_eq ran]
          rfl
        rw [← inserted] at one
        calc (literals cr.tree keep).encard + (r.stats.add cr.stats).replaced
            = (literals cr.tree keep).encard + cr.stats.replaced + r.stats.replaced := by
              simp only [Stats.add, Nat.cast_add]
              rw [add_assoc, add_comm (r.stats.replaced : ℕ∞)]
          _ = (literals r.tree keep).encard + r.stats.replaced + cr.stats.inserted := by
              rw [one, add_right_comm]
          _ = (literals t keep).encard + (r.stats.add cr.stats).inserted := by
              rw [before.balance strings, add_assoc, Stats.add, Nat.cast_add]
      · have none : r.stats.replaced + cr.stats.replaced = 0 := nothing
        rw [← before.unchanged (by omega)]
        exact step.tree_eq ran (by omega)

theorem exists_tallies (settings : Settings) {t : Tree} (compact : t.Compact) :
    ∃ r, runUnit settings t = .ok r ∧ r.tree.Compact ∧ Tallies t r := by
  obtain ⟨r, run, ⟨_, rfl⟩ | ⟨_, _, _, _, _, records⟩⟩ := runUnit_records settings compact.conforms
  · exact ⟨_, run, compact, .start t⟩
  · exact ⟨r, run, @Records.preserves _ _ (fun _ r => r.tree.Compact ∧ Tallies t r)
      (fun gathers before => gathers.tallies before.1 before.2) _ _ _ records []
      ⟨compact, .start t⟩⟩

theorem finite_literals (t : Tree) (keep : Literal → Prop) : (literals t keep).Finite := by
  refine (Set.finite_Iic t.size).subset ?_
  rintro id ⟨_, _, _, literal, _⟩
  exact literal.le_size

theorem Tallies.exists_counts {t : Tree} {r : UnitRun} (tallies : Tallies t r)
    (keep : Literal → Prop) (strings : ∀ lit, lit.isString = true → keep lit) :
    ∃ old new : Nat, (literals t keep).encard = old ∧ (literals r.tree keep).encard = new ∧
      new + r.stats.replaced = old + r.stats.inserted ∧ (r.stats.changed = true → new < old) := by
  obtain ⟨old, before⟩ := ENat.ne_top_iff_exists.mp
    (Set.encard_ne_top_iff.mpr (finite_literals t keep))
  obtain ⟨new, after⟩ := ENat.ne_top_iff_exists.mp
    (Set.encard_ne_top_iff.mpr (finite_literals r.tree keep))
  have balance := tallies.balance strings
  rw [← before, ← after, ← Nat.cast_add, ← Nat.cast_add, Nat.cast_inj] at balance
  refine ⟨old, new, before.symm, after.symm, balance, fun changed => ?_⟩
  have positive := tallies.counts.changed_iff.mp changed
  obtain ⟨constants, _, twice⟩ := tallies.counts
  omega

theorem literals_eq_describedBy (t : Tree) :
    literals t (fun _ => True) = describedBy t fun a => a.text .kind = Kind.literal.name := by
  ext id
  refine and_congr_right fun _ => ⟨?_, ?_⟩
  · rintro ⟨pos, lit, literal, _⟩
    exact ⟨_, literal, kind_nodeAttributes pos (.literal lit)⟩
  · rintro ⟨⟨pos, form⟩, held, described⟩
    have kind := Kind.name_injective ((kind_nodeAttributes pos form).symm.trans described)
    cases form with
    | literal lit => exact ⟨pos, lit, held, trivial⟩
    | _ => simp [Form.kind] at kind

/-- A run that edits a unit changes what is written for it. -/
theorem Tallies.wire_ne {t : Tree} {r : UnitRun} (tallies : Tallies t r) (compact : t.Compact)
    (compact' : r.tree.Compact) (changed : r.stats.changed = true) {before after : Option Wire}
    (written : unitOfTree t = .ok before) (written' : unitOfTree r.tree = .ok after) :
    after ≠ before := by
  rintro rfl
  obtain ⟨old, new, oldCount, newCount, _, fewer⟩ :=
    tallies.exists_counts (fun _ => True) fun _ _ => trivial
  have same := encard_describedBy_of_same_wire compact.conforms compact'.conforms written written'
    fun a => a.text .kind = Kind.literal.name
  rw [← literals_eq_describedBy, ← literals_eq_describedBy, oldCount, newCount,
    Nat.cast_inj] at same
  exact absurd same (Nat.ne_of_gt (fewer changed))

/-- The counts of a run are exact: its groups are the constants that it made, reused or renamed,
and their occurrences, two or more for each, are what it replaced.  The number of string literals of
the unit changes accordingly, as does that of all literals and of any literals among which are the
string literals.  A run counts edits exactly if what is written for the unit afterwards is not what
was written before, and then there are fewer literals. -/
theorem stats_are_exact {codec : Codec} {bytes : List UInt8} {doc : Document}
    (accepted : Document.read codec bytes = .ok doc) {t : Tree} (member : t ∈ doc.trees)
    (settings : Settings) :
    ∃ r before after, runUnit settings t = .ok r ∧ unitOfTree t = .ok before ∧
      unitOfTree r.tree = .ok after ∧
      r.stats.inserted + r.stats.reused + r.stats.renamed =
        (r.plans.flatMap Plan.groups).length ∧
      r.stats.replaced = ((r.plans.flatMap Plan.groups).flatMap Group.sites).length ∧
      2 * (r.stats.inserted + r.stats.reused + r.stats.renamed) ≤ r.stats.replaced ∧
      (∀ keep : Literal → Prop, (∀ lit, lit.isString = true → keep lit) →
        ∃ old new : Nat, (literals t keep).encard = old ∧ (literals r.tree keep).encard = new ∧
          new + r.stats.replaced = old + r.stats.inserted ∧
          (r.stats.changed = true → new < old)) ∧
      (r.stats.changed = true ↔ after ≠ before) := by
  rcases empty_or_compact_of_read accepted member with rfl | compact
  · exact ⟨_, none, none, runUnit_of_no_root settings rfl, rfl, rfl, rfl, rfl, Nat.le_refl 0,
      (Tallies.start {}).exists_counts, by simp [Stats.changed]⟩
  obtain ⟨r, run, compact', tallies⟩ := exists_tallies settings compact
  obtain ⟨before, written⟩ := exists_unitOfTree (.inr compact.conforms)
  obtain ⟨after, written'⟩ := exists_unitOfTree (.inr compact'.conforms)
  obtain ⟨constants, sites, twice⟩ := tallies.counts
  refine ⟨r, before, after, run, written, written', constants, sites, constants ▸ twice,
    tallies.exists_counts, fun changed =>
      tallies.wire_ne compact compact' changed written written', fun differs => ?_⟩
  by_contra unchanged
  rw [tallies.counts.changed_iff] at unchanged
  have same := tallies.unchanged (by omega)
  rw [same, written] at written'
  exact differs (Except.ok.inj written').symm

/-- A class with a constant `go` whose value occurs twice, with a value without a constant that
occurs twice, and with a nested class that has a constant for that value and the value twice. -/
def countedUnit : Tree where
  root := 24
  nodes := #[
    some { form := .literal { value := "off", type := "String" } },
    some { form := .namedVar "go" 1 },
    some { form := .varDecl { mods := .constant, type := "String", vars := [2] } },
    some { form := .literal { value := "off", type := "String" } },
    some { form := .literal { value := "off", type := "String" } },
    some { form := .binary "+" 4 5 "" },
    some { form := .namedVar "x" 6 },
    some { form := .varDecl { mods := .ofList [.final], type := "String", vars := [7] } },
    some { form := .literal { value := "hi", type := "String" } },
    some { form := .literal { value := "hi", type := "String" } },
    some { form := .binary "+" 9 10 "" },
    some { form := .namedVar "y" 11 },
    some { form := .varDecl { mods := .ofList [.final], type := "String", vars := [12] } },
    some { form := .literal { value := "hi", type := "String" } },
    some { form := .namedVar "HI" 14 },
    some { form := .varDecl { mods := .constant, type := "String", vars := [15] } },
    some { form := .literal { value := "hi", type := "String" } },
    some { form := .literal { value := "hi", type := "String" } },
    some { form := .binary "+" 17 18 "" },
    some { form := .namedVar "z" 19 },
    some { form := .varDecl { mods := .ofList [.final], type := "String", vars := [20] } },
    some { form := .classDecl { name := "B", fqn := "A.B", members := [16, 21] } },
    some { form := .classDecl { name := "A", fqn := "A", members := [3, 8, 13, 22] } },
    some { form := .unit { name := "A.java", classes := [23] } }]

theorem countedUnit_exact :
    ∃ r before after, runUnit {} countedUnit = .ok r ∧ unitOfTree countedUnit = .ok before ∧
      unitOfTree r.tree = .ok after ∧
      r.stats = { inserted := 1, reused := 1, renamed := 1, replaced := 6 } ∧
      (literals r.tree fun lit => lit.isString = true).encard + 5 =
        (literals countedUnit fun lit => lit.isString = true).encard ∧
      after ≠ before := by
  have accepted := read_writtenUnit (t := countedUnit) (by decide +kernel)
  have inDoc : countedUnit ∈ [countedUnit] := List.mem_singleton.mpr rfl
  obtain ⟨r, before, after, run, written, written', _, _, _, counts, changed⟩ :=
    stats_are_exact accepted inDoc {}
  have computed : (runUnit {} countedUnit).toOption.map UnitRun.stats =
      some { inserted := 1, reused := 1, renamed := 1, replaced := 6 } := by decide +kernel
  rw [run, Except.toOption, Option.map_some, Option.some_inj] at computed
  obtain ⟨old, new, oldCount, newCount, balance, _⟩ :=
    counts (fun lit => lit.isString = true) fun _ isString => isString
  rw [computed] at balance changed
  refine ⟨r, before, after, run, written, written', computed, ?_, changed.mp rfl⟩
  rw [oldCount, newCount]
  exact_mod_cast Nat.succ.inj balance

end LiteralHoist.Consolidate
