import LiteralHoist.Proofs.Consolidate.Planning

/-!
# Values one by one

What a plan decides for a value depends on the constants of the class, on the names that are taken
and on the values that come before it.  A value is skipped exactly if there is no name for it within
the limit on suffixes, and then it leaves no trace in what is decided for the values after it.
-/

set_option autoImplicit false

namespace LiteralHoist.Consolidate

open LiteralHoist.Source

def seedOf (existing : List Constant) (o : Occurrences) : Text :=
  match existing.find? (·.value == o.value) with
  | some k => k.name
  | none => o.value

/-- Whether a value cannot have a name; the declaration of its own constant does not count. -/
def takenFor (existing : List Constant) (scope : Scope) (o : Occurrences) : Text → Bool :=
  match existing.find? (·.value == o.value) with
  | some k => scope.takenByOthers k.name
  | none => scope.taken

/-- The group of a value under a name, with the constant that the class has for the value or with a
new one. -/
def groupOf (o : Occurrences) (own : Option Constant) (name : Text) : Group :=
  match own with
  | some k => {
      value := o.value, sites := o.sites, name, oldName := k.name, var := k.var
      action := if name = k.name then .reuse else .rename }
  | none => { value := o.value, sites := o.sites, action := .insert, name }

def skipOf (o : Occurrences) : Skip :=
  ⟨o.value, o.sites⟩

theorem planGroup_eq (settings : Settings) (existing : List Constant) (scope : Scope)
    (o : Occurrences) :
    planGroup settings existing scope o =
      (freeName (seedOf existing o) (takenFor existing scope o) scope.size
        settings.maxSuffix).found.map (groupOf o (existing.find? (·.value == o.value))) := by
  unfold planGroup seedOf takenFor groupOf
  cases existing.find? (·.value == o.value) with
  | some k => simp only [nameForConstant, bind_pure_comp, Option.map_eq_map]
  | none => simp only [nameForValue, bind_pure_comp, Option.map_eq_map]

theorem Scope.mem_of_taken {scope : Scope} {name : Text} (used : scope.taken name = true) :
    name ∈ scope.committed ∨ name ∈ scope.bound := by
  simpa [Scope.taken] using used

theorem Scope.mem_of_takenByOthers {scope : Scope} {own name : Text}
    (used : scope.takenByOthers own name = true) :
    name ∈ scope.committed ∨ name ∈ scope.bound := by
  unfold Scope.takenByOthers at used
  split at used
  · rcases Bool.or_eq_true_iff.mp used with committed | twice
    · exact .inl (by simpa using committed)
    · have several : 1 < scope.bound.count name := by simpa using twice
      exact .inr (List.count_pos_iff.mp (by omega))
  · exact Scope.mem_of_taken used

theorem mem_of_takenFor {existing : List Constant} {scope : Scope} {o : Occurrences} {name : Text}
    (used : takenFor existing scope o name = true) :
    name ∈ scope.committed ++ scope.bound := by
  rw [List.mem_append]
  cases own : existing.find? (·.value == o.value) with
  | some k => exact Scope.mem_of_takenByOthers (by simpa only [takenFor, own] using used)
  | none => exact Scope.mem_of_taken (by simpa only [takenFor, own] using used)

/-- A value is left alone if no name can be made for it, or if all the names that the limit allows
are taken. -/
theorem planGroup_eq_none_iff {settings : Settings} {existing : List Constant} {scope : Scope}
    {o : Occurrences} :
    planGroup settings existing scope o = none ↔
      constantName (seedOf existing o) = "" ∨ 0 < settings.maxSuffix ∧
        ∀ i : Nat, (i : Int) ≤ settings.maxSuffix →
          takenFor existing scope o (suffixed (constantName (seedOf existing o)) i) = true := by
  have size : scope.size = (scope.committed ++ scope.bound).length := by
    rw [List.length_append, Scope.size]
  rw [planGroup_eq, Option.map_eq_none_iff, size]
  exact freeName_none_iff fun name used => mem_of_takenFor used

theorem planGroup_eq_some {settings : Settings} {existing : List Constant} {scope : Scope}
    {o : Occurrences} {g : Group} (planned : planGroup settings existing scope o = some g) :
    IsFirstFree (fun name => takenFor existing scope o name = false)
        (constantName (seedOf existing o)) g.name ∧
      g = groupOf o (existing.find? (·.value == o.value)) g.name := by
  rw [planGroup_eq] at planned
  obtain ⟨name, found, rfl⟩ := Option.map_eq_some_iff.mp planned
  have named : (groupOf o (existing.find? (·.value == o.value)) name).name = name := by
    unfold groupOf
    split <;> rfl
  rw [named]
  exact ⟨freeName_first found, rfl⟩

section Order
variable {settings : Settings} {existing : List Constant} {scope : Scope}
  {before rest found : List Occurrences} {o : Occurrences} {groups : List Group}
  {skipped : List Skip}

def Scope.commitAll (scope : Scope) (groups : List Group) : Scope :=
  groups.foldl (fun scope g => scope.commit g.name) scope

theorem Scope.bound_commitAll (groups : List Group) : ∀ scope : Scope,
    (scope.commitAll groups).bound = scope.bound := by
  induction groups with
  | nil => intro scope; rfl
  | cons g groups ih => intro scope; exact ih (scope.commit g.name)

theorem Scope.mem_commitAll {name : Text} (groups : List Group) : ∀ scope : Scope,
    name ∈ (scope.commitAll groups).committed ↔
      name ∈ groups.map Group.name ∨ name ∈ scope.committed := by
  induction groups with
  | nil => intro scope; simp [Scope.commitAll]
  | cons g groups ih =>
      intro scope
      have step := ih (scope.commit g.name)
      simp only [Scope.commit, List.mem_cons] at step
      rw [List.map_cons, List.mem_cons]
      exact step.trans (by tauto)

/-- Values are planned after those before them, in the scope that these leave. -/
theorem Planning.split
    (planning : Planning settings existing scope (before ++ rest) groups skipped) :
    ∃ groups₁ skipped₁ groups₂ skipped₂, groups = groups₁ ++ groups₂ ∧
      skipped = skipped₁ ++ skipped₂ ∧ Planning settings existing scope before groups₁ skipped₁ ∧
      Planning settings existing (scope.commitAll groups₁) rest groups₂ skipped₂ := by
  induction before generalizing scope groups skipped with
  | nil => exact ⟨[], [], groups, skipped, rfl, rfl, .done scope, planning⟩
  | cons o before ih =>
      cases planning with
      | grant planned later =>
          obtain ⟨groups₁, skipped₁, groups₂, skipped₂, rfl, rfl, first, second⟩ := ih later
          exact ⟨_, skipped₁, groups₂, skipped₂, rfl, rfl, .grant planned first, second⟩
      | skip unplanned later =>
          obtain ⟨groups₁, skipped₁, groups₂, skipped₂, rfl, rfl, first, second⟩ := ih later
          exact ⟨groups₁, _, groups₂, skipped₂, rfl, rfl, .skip unplanned first, second⟩

def Group.occurrences (g : Group) : Occurrences :=
  ⟨g.value, g.sites⟩

def Skip.occurrences (s : Skip) : Occurrences :=
  ⟨s.value, s.sites⟩

/-- Each value gets a group or is left alone. -/
theorem Planning.perm (planning : Planning settings existing scope found groups skipped) :
    (groups.map Group.occurrences ++ skipped.map Skip.occurrences).Perm found := by
  induction planning with
  | done => exact .nil
  | grant planned _ ih =>
      have granted := grants_of_planGroup planned
      rw [List.map_cons, List.cons_append, Group.occurrences, granted.value_eq, granted.sites_eq]
      exact ih.cons _
  | skip _ _ ih => exact List.perm_middle.trans (ih.cons _)

theorem Planning.skipped_sublist
    (planning : Planning settings existing scope found groups skipped) :
    (skipped.map Skip.occurrences).Sublist found := by
  induction planning with
  | done => exact .slnil
  | grant _ _ ih => exact ih.cons _
  | skip _ _ ih => exact ih.cons_cons _

theorem Planning.value_mem (planning : Planning settings existing scope found groups skipped)
    {g : Group} (member : g ∈ groups) : g.value ∈ found.map Occurrences.value := by
  have inside := planning.sublist.subset (List.mem_map_of_mem member)
  exact List.mem_map_of_mem (f := Occurrences.value) inside

theorem Planning.skip_mem (planning : Planning settings existing scope found groups skipped)
    {s : Skip} (member : s ∈ skipped) : s.value ∈ found.map Occurrences.value := by
  have inside := planning.skipped_sublist.subset (List.mem_map_of_mem member)
  exact List.mem_map_of_mem (f := Occurrences.value) inside

/-- A value is decided in the scope that the groups of the values before it leave. -/
theorem Planning.decides
    (planning : Planning settings existing scope (before ++ o :: rest) groups skipped)
    (once : ((before ++ o :: rest).map Occurrences.value).Nodup) {here : Scope}
    (reached : here = scope.commitAll
      (groups.filter fun g => (before.map Occurrences.value).contains g.value)) :
    (skipOf o ∈ skipped ↔ planGroup settings existing here o = none) ∧
      ∀ g ∈ groups, g.value = o.value → planGroup settings existing here o = some g := by
  obtain ⟨groups₁, skipped₁, groups₂, skipped₂, rfl, rfl, first, second⟩ := planning.split
  rw [List.map_append, List.map_cons, List.nodup_append] at once
  obtain ⟨_, rest_once, apart⟩ := once
  have earlier : (groups₁ ++ groups₂).filter
      (fun g => (before.map Occurrences.value).contains g.value) = groups₁ := by
    rw [List.filter_append, List.filter_eq_self.mpr, List.filter_eq_nil_iff.mpr, List.append_nil]
    · intro g member known
      exact apart _ (by simpa using known) _ (second.value_mem member) rfl
    · intro g member
      simpa using first.value_mem member
  rw [earlier] at reached
  subst reached
  have notBefore : o.value ∉ before.map Occurrences.value :=
    fun known => apart _ known _ List.mem_cons_self rfl
  have notAfter := (List.nodup_cons.mp rest_once).1
  cases second with
  | @grant _ _ _ g _ _ planned later =>
      have value := (grants_of_planGroup planned).value_eq
      rw [planned]
      constructor
      · simp only [reduceCtorEq, iff_false, List.mem_append, not_or]
        exact ⟨fun left => notBefore (first.skip_mem left),
          fun left => notAfter (later.skip_mem left)⟩
      · intro g' member same
        rw [List.mem_append, List.mem_cons] at member
        rcases member with inFirst | rfl | inLater
        · exact absurd (same ▸ first.value_mem inFirst) notBefore
        · rfl
        · exact absurd (same ▸ later.value_mem inLater) notAfter
  | skip unplanned later =>
      rw [unplanned]
      constructor
      · simp [skipOf]
      · intro g member same
        rcases List.mem_append.mp member with inFirst | inLater
        · exact absurd (same ▸ first.value_mem inFirst) notBefore
        · exact absurd (same ▸ later.value_mem inLater) notAfter

/-- Each value is decided in a scope that groups of the plan leave. -/
theorem Planning.decision (planning : Planning settings existing scope found groups skipped)
    (once : (found.map Occurrences.value).Nodup) (member : o ∈ found) :
    ∃ earlier, earlier ⊆ groups ∧
      (o.value ∉ groups.map Group.value →
        planGroup settings existing (scope.commitAll earlier) o = none) ∧
      ∀ g ∈ groups, g.value = o.value →
        planGroup settings existing (scope.commitAll earlier) o = some g := by
  obtain ⟨before, after, rfl⟩ := List.append_of_mem member
  obtain ⟨skip, group⟩ := planning.decides once rfl
  refine ⟨_, List.filter_subset_self _, fun unplanned => skip.mp ?_, group⟩
  rcases List.mem_append.mp (planning.perm.symm.subset member) with inGroups | inSkipped
  · obtain ⟨g, inPlan, rfl⟩ := List.mem_map.mp inGroups
    exact absurd (List.mem_map_of_mem inPlan) unplanned
  · obtain ⟨s, left, rfl⟩ := List.mem_map.mp inSkipped
    exact left

/-- The values without a group are left alone. -/
theorem Planning.skipped_eq (planning : Planning settings existing scope found groups skipped)
    (once : (found.map Occurrences.value).Nodup) :
    skipped = (found.filter fun o => !(groups.map Group.value).contains o.value).map skipOf := by
  induction planning with
  | done => rfl
  | @grant scope o rest g groups skipped planned later ih =>
      rw [List.map_cons, List.nodup_cons] at once
      have value := (grants_of_planGroup planned).value_eq
      rw [List.filter_cons_of_neg (by simp [value]), ih once.2]
      refine congrArg (List.map skipOf) (List.filter_congr fun o' member => ?_)
      have other : o'.value ≠ g.value := by
        rintro same
        exact once.1 (List.mem_map.mpr ⟨o', member, same.trans value⟩)
      simp [other]
  | @skip scope o rest groups skipped unplanned later ih =>
      rw [List.map_cons, List.nodup_cons] at once
      have absent : o.value ∉ groups.map Group.value := by
        intro planned
        obtain ⟨g, member, same⟩ := List.mem_map.mp planned
        exact once.1 (same ▸ later.value_mem member)
      rw [List.filter_cons_of_pos (by simpa using absent), List.map_cons, ← ih once.2]
      rfl

/-- If no value can be granted a name, all are left alone. -/
theorem Planning.eq_nil (planning : Planning settings existing scope found groups skipped)
    (unplanned : ∀ o ∈ found, planGroup settings existing scope o = none) :
    groups = [] ∧ skipped = found.map skipOf := by
  induction planning with
  | done => exact ⟨rfl, rfl⟩
  | grant planned _ _ =>
      rw [unplanned _ List.mem_cons_self] at planned
      simp at planned
  | skip _ _ ih =>
      obtain ⟨noGroups, all⟩ := ih fun o member => unplanned o (List.mem_cons_of_mem _ member)
      exact ⟨noGroups, congrArg _ all⟩

theorem takenFor_eq_false_iff {name : Text} :
    takenFor existing scope o name = false ↔ name ∉ scope.committed ∧
      scope.bound.count name ≤
        if (existing.find? (·.value == o.value)).map Constant.name = some name then 1 else 0 := by
  cases own : existing.find? (·.value == o.value) with
  | some k =>
      simp only [takenFor, own, Scope.takenByOthers, Scope.taken, Option.map_some, Option.some_inj]
      by_cases same : name = k.name
      · simp [same]
      · simp [same, Ne.symm same, List.count_eq_zero]
  | none => simp [takenFor, own, Scope.taken, List.count_eq_zero]

end Order

/-- Without a limit on suffixes, a value is left alone only if no name can be made for it. -/
theorem planGroup_eq_none_iff_unnamed {settings : Settings} (unlimited : settings.maxSuffix = 0)
    {existing : List Constant} (scope : Scope) {o : Occurrences} :
    planGroup settings existing scope o = none ↔ constantName (seedOf existing o) = "" := by
  simp [planGroup_eq_none_iff, unlimited]

theorem Planning.unlimited {settings : Settings} (unlimited : settings.maxSuffix = 0)
    {existing : List Constant} {scope : Scope} {found : List Occurrences} {groups : List Group}
    {skipped : List Skip} (planning : Planning settings existing scope found groups skipped) :
    (groups.map fun g => (⟨g.value, g.sites⟩ : Occurrences)) =
        found.filter (fun o => constantName (seedOf existing o) ≠ "") ∧
      skipped = (found.filter fun o => constantName (seedOf existing o) = "").map skipOf := by
  induction planning with
  | done => exact ⟨rfl, rfl⟩
  | @grant scope o _ g _ _ planned _ ih =>
      have granted := grants_of_planGroup planned
      have named : constantName (seedOf existing o) ≠ "" := by
        rw [Ne, ← planGroup_eq_none_iff_unnamed unlimited scope, planned]
        simp
      simp [named, ih, granted.value_eq, granted.sites_eq]
  | skip unplanned _ ih =>
      have unnamed := (planGroup_eq_none_iff_unnamed unlimited _).mp unplanned
      simp [unnamed, ih, skipOf]

end LiteralHoist.Consolidate
