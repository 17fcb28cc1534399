import LiteralHoist.Proofs.Consolidate.Decision
import LiteralHoist.Proofs.Consolidate.Safety

/-!
# Every value is decided, and by the first free name

The plan of a class puts each repeated value into a group or leaves it alone.  Which of the two, and
under which name, is settled by how often the candidates are bound in the class and by the groups
of the values before.
-/

set_option autoImplicit false

namespace LiteralHoist.Consolidate

open LiteralHoist.Source LiteralHoist.Document

/-- A node binds a name in the class of a full name: it is a variable of that name, or a simple
name that refers by it to a field of another class. -/
def Binds (t : Tree) (fqn name : Text) (id : NodeId) : Prop :=
  (∃ pos init, t.Holds id ⟨pos, .namedVar name init⟩) ∨
    ∃ pos type field, t.Holds id ⟨pos, .ident name type (some field)⟩ ∧ field.owner ≠ fqn

theorem boundName_eq_some_iff {t : Tree} {fqn name : Text} {id : NodeId} :
    boundName fqn (t.peek id) = some name ↔ Binds t fqn name id := by
  constructor
  · intro bound
    unfold boundName at bound
    split at bound
    · rename_i pos name' init found
      obtain rfl := Option.some.inj bound
      exact .inl ⟨pos, init, Tree.holds_of_peek found⟩
    · rename_i pos name' type field found
      split at bound
      · simp at bound
      · rename_i foreign
        obtain rfl := Option.some.inj bound
        exact .inr ⟨pos, type, field, Tree.holds_of_peek found, foreign⟩
    · simp at bound
  · rintro (⟨pos, init, held⟩ | ⟨pos, type, field, held, foreign⟩)
    · rw [held.peek_eq]
      rfl
    · rw [held.peek_eq]
      simp [boundName, foreign]

noncomputable def bindings (t : Tree) (c : NodeId) (fqn name : Text) : ℕ∞ :=
  {id | t.Below c id ∧ Binds t fqn name id}.encard

section Class
variable {t : Tree} {f below : Forest} {c : NodeId} {pos : Position} {d : ClassDecl}

theorem count_eq_bindings (here : ClassIn t f c below pos d) (name : Text) :
    ((boundIn t c below d.fqn).count name : ℕ∞) = bindings t c d.fqn name := by
  have same : ∀ id, id ∈ (Forest.cons c below .nil).ids.filter
      (fun id => boundName d.fqn (t.peek id) == some name) ↔
        t.Below c id ∧ Binds t d.fqn name id := by
    intro id
    simp [← boundName_eq_some_iff, here.occurs.below_iff here.shaped.follows]
  rw [bindings, Forest.encard_setOf_mem (here.nodup.filter _) same, count_boundIn]

/-- A name is free for a value: none of the earlier groups has it, and nothing in the class binds
it, one declaration of the value's own constant aside. -/
def FreeFor (t : Tree) (c : NodeId) (fqn : Text) (own : Option Constant) (earlier : List Group)
    (name : Text) : Prop :=
  name ∉ earlier.map Group.name ∧
    bindings t c fqn name ≤ if own.map Constant.name = some name then 1 else 0

theorem takenFor_eq_false_iff_freeFor (here : ClassIn t f c below pos d) {earlier : List Group}
    {o : Occurrences} {name : Text} :
    takenFor (firstOfEach (declaredIn t d))
        (Scope.commitAll { bound := boundIn t c below d.fqn } earlier) o name = false ↔
      FreeFor t c d.fqn ((declaredIn t d).find? (·.value == o.value)) earlier name := by
  rw [takenFor_eq_false_iff, Scope.mem_commitAll, Scope.bound_commitAll, find?_firstOfEach, FreeFor,
    ← count_eq_bindings here]
  refine and_congr (by simp) ?_
  split <;> norm_cast

end Class

theorem nodup_values_repeatedIn (t : Tree) (settings : Settings) (c : NodeId) (below : Forest) :
    ((repeatedIn t settings c below).map Occurrences.value).Nodup := by
  have all := nodup_distinct ((occurrencesIn t settings c below).map Prod.fst)
  rw [← values_groupByValue] at all
  exact all.sublist (List.filter_sublist.map _)

/-- A class with a resolved type gets a plan.  Each value that is repeated in the class has one
group or is left alone, with all its occurrences and in the order in which the values first occur.
It is left alone exactly if no name can be made for it or if the names up to the limit are not
free; else its name is the first free one, and its constant the first that the class declares for
the value, or a new one. -/
theorem values_get_first_free_names {codec : Codec} {bytes : List UInt8} {doc : Document}
    (accepted : Document.read codec bytes = .ok doc) {t : Tree} (member : t ∈ doc.trees)
    {c : NodeId} {pos : Position} {d : ClassDecl} (held : t.Holds c ⟨pos, .classDecl d⟩)
    (resolved : d.fqn ≠ "") (settings : Settings) :
    ∃ all found p, sites t settings c = .ok all ∧ repeated t settings c = .ok found ∧
      planClass t settings c = .ok (.ok p) ∧
      (found.map Occurrences.value).Sublist (distinct (all.map Prod.fst)) ∧
      (∀ o ∈ found, o.sites = (all.filter (·.1 == o.value)).map Prod.snd) ∧
      (found.map Occurrences.value).Nodup ∧
      (p.groups.map Group.occurrences).Sublist found ∧
      (p.skipped.map Skip.occurrences).Sublist found ∧
      (p.groups.map Group.occurrences ++ p.skipped.map Skip.occurrences).Perm found ∧
      ∀ before o after, found = before ++ o :: after →
        let own := (declaredIn t d).find? (·.value == o.value)
        let base := constantName (seedOf (declaredIn t d) o)
        let free := FreeFor t c d.fqn own
          (p.groups.filter fun g => (before.map Occurrences.value).contains g.value)
        (skipOf o ∈ p.skipped ↔ base = "" ∨ 0 < settings.maxSuffix ∧
          ∀ i : Nat, (i : Int) ≤ settings.maxSuffix → ¬ free (suffixed base i)) ∧
        ∀ g ∈ p.groups, g.value = o.value →
          IsFirstFree free base g.name ∧ g = groupOf o own g.name := by
  obtain ⟨f, below, here⟩ := exists_classIn_of_reached accepted member .read held
  have planning := planning_classPlan t settings c below d
  have once := nodup_values_repeatedIn t settings c below
  refine ⟨occurrencesIn t settings c below, repeatedIn t settings c below, _,
    sites_eq here settings, ?_, planClass_eq here settings resolved, ?_, ?_, once,
    planning.sublist, planning.skipped_sublist, planning.perm, ?_⟩
  · rw [repeated, sites_eq here settings, ok_bind]
    rfl
  · rw [← values_groupByValue]
    exact List.filter_sublist.map _
  · intro o found
    obtain ⟨v, _, rfl⟩ := List.mem_map.mp (List.mem_filter.mp found).1
    rfl
  · intro before o after place own base free
    have seed : seedOf (firstOfEach (declaredIn t d)) o = seedOf (declaredIn t d) o := by
      rw [seedOf, find?_firstOfEach]
      rfl
    have same : ∀ name, free name ↔ takenFor (firstOfEach (declaredIn t d))
        (Scope.commitAll { bound := boundIn t c below d.fqn } _) o name = false :=
      fun name => (takenFor_eq_false_iff_freeFor here).symm
    rw [place] at planning once
    obtain ⟨skip, group⟩ := planning.decides once rfl
    constructor
    · rw [skip, planGroup_eq_none_iff, seed]
      simp only [same, Bool.not_eq_false]
      rfl
    · intro g inPlan value
      obtain ⟨first, shape⟩ := planGroup_eq_some (group g inPlan value)
      rw [find?_firstOfEach] at shape
      rw [seed] at first
      refine ⟨?_, shape⟩
      simpa only [IsFirstFree, same] using first

/-- A class with fields `HI` and `HI_1`, a constant `go` and the values `"hi"`, `"on"` and `"off"`
twice each, of which the last is that of the constant. -/
def limitedUnit : Tree where
  root := 20
  nodes := #[
    some { form := .literal { value := "hi", type := "String" } },
    some { form := .literal { value := "hi", type := "String" } },
    some { form := .binary "+" 1 2 "" },
    some { form := .namedVar "HI" 3 },
    some { form := .varDecl { mods := .ofList [.final], type := "String", vars := [4] } },
    some { form := .literal { value := "on", type := "String" } },
    some { form := .literal { value := "on", type := "String" } },
    some { form := .binary "+" 6 7 "" },
    some { form := .namedVar "HI_1" 8 },
    some { form := .varDecl { mods := .ofList [.final], type := "String", vars := [9] } },
    some { form := .literal { value := "off", type := "String" } },
    some { form := .namedVar "go" 11 },
    some { form := .varDecl { mods := .constant, type := "String", vars := [12] } },
    some { form := .literal { value := "off", type := "String" } },
    some { form := .literal { value := "off", type := "String" } },
    some { form := .binary "+" 14 15 "" },
    some { form := .namedVar "x" 16 },
    some { form := .varDecl { mods := .ofList [.final], type := "String", vars := [17] } },
    some { form := .classDecl { name := "A", fqn := "A", members := [5, 10, 13, 18] } },
    some { form := .unit { name := "A.java", classes := [19] } }]

theorem limitedUnit_first_free :
    ∃ p, planClass limitedUnit { maxSuffix := 1 } 19 = .ok (.ok p) ∧
      skipOf ⟨"hi", [1, 2]⟩ ∈ p.skipped ∧
      (∀ i : Nat, (i : Int) ≤ 1 → ¬ FreeFor limitedUnit 19 "A" none [] (suffixed "HI" i)) ∧
      p.groups.map (fun g => (g.action, g.oldName, g.name)) =
        ([(.insert, "", "ON"), (.rename, "go", "GO")] : List (Action × Text × Text)) := by
  have accepted := read_writtenUnit (t := limitedUnit) (by decide +kernel)
  obtain ⟨all, found, p, _, values, plan, _, _, _, _, _, _, decided⟩ :=
    values_get_first_free_names accepted (List.mem_singleton.mpr rfl)
      (show limitedUnit.Holds 19 ⟨{}, .classDecl
        { name := "A", fqn := "A", members := [5, 10, 13, 18] }⟩ from rfl) (by decide)
      { maxSuffix := 1 }
  have listed : (repeated limitedUnit { maxSuffix := 1 } 19).toOption =
      some [⟨"hi", [1, 2]⟩, ⟨"on", [6, 7]⟩, ⟨"off", [14, 15]⟩] := by decide +kernel
  have planned : (planClass limitedUnit { maxSuffix := 1 } 19).toOption.map
      (fun result => result.toOption.map fun p =>
        (p.skipped, p.groups.map fun g => (g.action, g.oldName, g.name))) =
      some (some ([skipOf ⟨"hi", [1, 2]⟩],
        ([(.insert, "", "ON"), (.rename, "go", "GO")] : List (Action × Text × Text)))) := by
    decide +kernel
  rw [values, Except.toOption, Option.some_inj] at listed
  rw [plan] at planned
  simp only [Except.toOption, Option.map_some, Option.some_inj, Prod.mk.injEq] at planned
  have own : (declaredIn limitedUnit { name := "A", fqn := "A", members := [5, 10, 13, 18] }).find?
      (·.value == ("hi" : Text)) = none := by decide +kernel
  have base : constantName "hi" = "HI" := by decide +kernel
  have skipped : skipOf ⟨"hi", [1, 2]⟩ ∈ p.skipped := by simp [planned.1]
  have limit := ((decided [] ⟨"hi", [1, 2]⟩ _ listed).1.mp skipped).resolve_left (by
    simp only [seedOf, own, base]
    decide)
  simp only [seedOf, own, base, List.map_nil, List.contains_nil, List.filter_false] at limit
  exact ⟨p, plan, skipped, limit.2, planned.2⟩

end LiteralHoist.Consolidate
