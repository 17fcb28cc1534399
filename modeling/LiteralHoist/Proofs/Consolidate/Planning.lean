import LiteralHoist.Proofs.Consolidate.Name
import LiteralHoist.Proofs.Consolidate.Scan

/-!
# What a plan decides

`Grants` lists the ways in which the occurrences of a value can get a constant, and `Planning`
follows the values in the order in which they are planned.  What a plan decides is read off from
them: the names are different from each other and from what is bound in the class, and the values
are those that occur often enough.

`Fits` gathers what holds of the groups of a plan in the tree that they were planned for.  Carrying
out a plan relies on nothing else.
-/

set_option autoImplicit false

namespace LiteralHoist.Consolidate

open LiteralHoist.Source

def addDistinct (seen : List Text) (v : Text) : List Text :=
  if seen.contains v then seen else seen ++ [v]

theorem distinct_eq (values : List Text) : distinct values = values.foldl addDistinct [] :=
  rfl

theorem nodup_addDistinct {seen : List Text} (nodup : seen.Nodup) (v : Text) :
    (addDistinct seen v).Nodup := by
  unfold addDistinct
  split
  · exact nodup
  · rename_i unknown
    have absent : v ∉ seen := by simpa using unknown
    exact List.nodup_append.mpr ⟨nodup, by simp, by
      intro a old b single same
      obtain rfl : b = v := by simpa using single
      exact absent (same ▸ old)⟩

theorem filter_addDistinct (keep : Text → Bool) (seen : List Text) (v : Text) :
    (addDistinct seen v).filter keep =
      if keep v then addDistinct (seen.filter keep) v else seen.filter keep := by
  unfold addDistinct
  cases kept : keep v with
  | false => split <;> simp [kept]
  | true =>
      have same : (seen.filter keep).contains v = seen.contains v := by
        simp [kept]
      rw [same]
      split <;> simp [kept]

theorem nodup_distinct (values : List Text) : (distinct values).Nodup := by
  have general : ∀ (rest seen : List Text), seen.Nodup → (rest.foldl addDistinct seen).Nodup := by
    intro rest
    induction rest with
    | nil => intro seen nodup; exact nodup
    | cons v rest ih => intro seen nodup; exact ih _ (nodup_addDistinct nodup v)
  exact general values [] .nil

theorem distinct_filter (keep : Text → Bool) (values : List Text) :
    distinct (values.filter keep) = (distinct values).filter keep := by
  have general : ∀ (rest seen : List Text),
      (rest.foldl addDistinct seen).filter keep =
        (rest.filter keep).foldl addDistinct (seen.filter keep) := by
    intro rest
    induction rest with
    | nil => intro seen; rfl
    | cons v rest ih =>
        intro seen
        rw [List.foldl_cons, ih, filter_addDistinct]
        cases kept : keep v <;> simp [kept]
  simpa [distinct_eq] using (general values []).symm

theorem values_groupByValue (found : List (Text × NodeId)) :
    (groupByValue found).map Occurrences.value = distinct (found.map Prod.fst) := by
  simp [groupByValue, Function.comp_def]

theorem sites_of_mem_group {found : List (Text × NodeId)} {o : Occurrences}
    (member : o ∈ groupByValue found) {id : NodeId} :
    id ∈ o.sites ↔ (o.value, id) ∈ found := by
  obtain ⟨v, _, rfl⟩ := List.mem_map.mp member
  simp only [List.mem_map, List.mem_filter, beq_iff_eq, Prod.exists, exists_eq_right]

theorem groupByValue_filter (keep : Text → Bool) (found : List (Text × NodeId)) :
    groupByValue (found.filter fun site => keep site.1) =
      (groupByValue found).filter fun o => keep o.value := by
  have values : (found.filter fun site => keep site.1).map Prod.fst =
      (found.map Prod.fst).filter keep := by
    rw [List.filter_map]
    rfl
  unfold groupByValue
  rw [values, distinct_filter, List.filter_map]
  refine List.map_congr_left fun v member => ?_
  have kept : keep v = true := (List.mem_filter.mp member).2
  congr 2
  rw [List.filter_filter]
  refine List.filter_congr fun site _ => ?_
  by_cases same : site.1 = v
  · simp [same, kept]
  · simp [same]

theorem nodup_flatMap_sites {found : List (Text × NodeId)}
    (once : (found.map Prod.snd).Nodup) : ((groupByValue found).flatMap (·.sites)).Nodup := by
  have single : ∀ v w id, (v, id) ∈ found → (w, id) ∈ found → v = w := by
    intro v w id first second
    have same := List.inj_on_of_nodup_map once first second rfl
    exact congrArg Prod.fst same
  rw [List.nodup_flatMap]
  constructor
  · intro o member
    obtain ⟨v, _, rfl⟩ := List.mem_map.mp member
    exact once.sublist (List.filter_sublist.map Prod.snd)
  · have values : ((groupByValue found).map Occurrences.value).Nodup := by
      rw [values_groupByValue]
      exact nodup_distinct _
    have apart := List.pairwise_map.mp values
    refine apart.imp_of_mem fun {a b} memberA memberB differ => ?_
    intro id inA inB
    exact differ (single _ _ id ((sites_of_mem_group memberA).mp inA)
      ((sites_of_mem_group memberB).mp inB))

/-- The ways in which the occurrences of a value get a constant. -/
inductive Grants (existing : List Constant) (scope : Scope) (o : Occurrences) : Group → Prop where
  | insert {name : Text} (missing : existing.find? (·.value == o.value) = none)
      (free : scope.taken name = false) :
      Grants existing scope o { value := o.value, sites := o.sites, action := .insert, name }
  | reuse {k : Constant} (found : existing.find? (·.value == o.value) = some k)
      (free : k.name ∉ scope.committed) (single : scope.bound.count k.name ≤ 1) :
      Grants existing scope o {
        value := o.value, sites := o.sites, action := .reuse, name := k.name, oldName := k.name,
        var := k.var }
  | rename {k : Constant} {name : Text} (found : existing.find? (·.value == o.value) = some k)
      (other : name ≠ k.name) (free : scope.taken name = false) :
      Grants existing scope o {
        value := o.value, sites := o.sites, action := .rename, name, oldName := k.name,
        var := k.var }

theorem grants_of_planGroup {settings : Settings} {existing : List Constant} {scope : Scope}
    {o : Occurrences} {g : Group} (planned : planGroup settings existing scope o = some g) :
    Grants existing scope o g := by
  unfold planGroup at planned
  split at planned
  · rename_i k found
    obtain ⟨name, named, result⟩ := Option.bind_eq_some_iff.mp planned
    have free := freeName_free named
    obtain rfl := Option.some.inj result
    by_cases same : name = k.name
    · subst same
      simp only [Scope.takenByOthers, if_true, Bool.or_eq_false_iff] at free
      rw [if_pos rfl]
      exact .reuse found (by simpa using free.1) (by simpa using free.2)
    · simp only [Scope.takenByOthers, if_neg same] at free
      rw [if_neg same]
      exact .rename found same free
  · rename_i missing
    obtain ⟨name, named, result⟩ := Option.bind_eq_some_iff.mp planned
    obtain rfl := Option.some.inj result
    exact .insert missing (freeName_free named)

namespace Grants

variable {existing : List Constant} {scope : Scope} {o : Occurrences} {g : Group}

theorem value_eq (grants : Grants existing scope o g) : g.value = o.value := by
  cases grants <;> rfl

theorem sites_eq (grants : Grants existing scope o g) : g.sites = o.sites := by
  cases grants <;> rfl

theorem name_free (grants : Grants existing scope o g) : g.name ∉ scope.committed := by
  cases grants with
  | insert _ free =>
      simp only [Scope.taken, Bool.or_eq_false_iff] at free
      simpa using free.1
  | reuse _ free _ => exact free
  | rename _ _ free =>
      simp only [Scope.taken, Bool.or_eq_false_iff] at free
      simpa using free.1

/-- A name that is new to the class is not bound in it. -/
theorem name_unbound (grants : Grants existing scope o g) (new : g.action ≠ .reuse) :
    g.name ∉ scope.bound := by
  cases grants with
  | insert _ free =>
      simp only [Scope.taken, Bool.or_eq_false_iff] at free
      simpa using free.2
  | reuse => exact absurd rfl new
  | rename _ _ free =>
      simp only [Scope.taken, Bool.or_eq_false_iff] at free
      simpa using free.2

theorem reused (grants : Grants existing scope o g) (reuse : g.action = .reuse) :
    g.name = g.oldName ∧ scope.bound.count g.name ≤ 1 := by
  cases grants with
  | insert => simp at reuse
  | reuse _ _ single => exact ⟨rfl, single⟩
  | rename => simp at reuse

theorem found (grants : Grants existing scope o g) (old : g.action ≠ .insert) :
    existing.find? (·.value == o.value) = some ⟨g.oldName, g.value, g.var⟩ := by
  have keeps : ∀ {k : Constant}, existing.find? (·.value == o.value) = some k →
      k.value = o.value := by
    intro k first
    simpa using List.find?_some first
  cases grants with
  | insert => exact absurd rfl old
  | reuse first =>
      rw [first, ← keeps first]
  | rename first =>
      rw [first, ← keeps first]

theorem known (grants : Grants existing scope o g) :
    g.action = .insert ∨ g.action = .reuse ∨ g.action = .rename := by
  cases grants <;> simp

end Grants

inductive Planning (settings : Settings) (existing : List Constant) :
    Scope → List Occurrences → List Group → List Skip → Prop where
  | done (scope : Scope) : Planning settings existing scope [] [] []
  | grant {scope : Scope} {o : Occurrences} {rest : List Occurrences} {g : Group}
      {groups : List Group} {skipped : List Skip}
      (planned : planGroup settings existing scope o = some g)
      (later : Planning settings existing (scope.commit g.name) rest groups skipped) :
      Planning settings existing scope (o :: rest) (g :: groups) skipped
  | skip {scope : Scope} {o : Occurrences} {rest : List Occurrences} {groups : List Group}
      {skipped : List Skip} (unplanned : planGroup settings existing scope o = none)
      (later : Planning settings existing scope rest groups skipped) :
      Planning settings existing scope (o :: rest) groups (⟨o.value, o.sites⟩ :: skipped)

theorem planning_planGroups (settings : Settings) (existing : List Constant)
    (found : List Occurrences) : ∀ scope : Scope,
    Planning settings existing scope found (planGroups settings existing scope found).1
      (planGroups settings existing scope found).2 := by
  induction found with
  | nil => intro scope; exact .done scope
  | cons o rest ih =>
      intro scope
      cases planned : planGroup settings existing scope o with
      | some g =>
          simp only [planGroups, planned]
          exact .grant planned (ih _)
      | none =>
          simp only [planGroups, planned]
          exact .skip planned (ih _)

namespace Planning

variable {settings : Settings} {existing : List Constant} {scope : Scope}
  {found : List Occurrences} {groups : List Group} {skipped : List Skip}

/-- Each group was granted in a scope with the same bound names. -/
theorem grants (planning : Planning settings existing scope found groups skipped) :
    ∀ g ∈ groups, ∃ committed, ∃ o ∈ found, Grants existing ⟨scope.bound, committed⟩ o g := by
  induction planning with
  | done => simp
  | @grant scope o _ g _ _ planned _ ih =>
      intro g' member
      rcases List.mem_cons.mp member with rfl | later
      · exact ⟨scope.committed, o, by simp, grants_of_planGroup planned⟩
      · obtain ⟨committed, o', member', granted⟩ := ih g' later
        exact ⟨committed, o', by simp [member'], granted⟩
  | skip _ _ ih =>
      intro g member
      obtain ⟨committed, o', member', granted⟩ := ih g member
      exact ⟨committed, o', by simp [member'], granted⟩

theorem sublist (planning : Planning settings existing scope found groups skipped) :
    (groups.map fun g => (⟨g.value, g.sites⟩ : Occurrences)).Sublist found := by
  induction planning with
  | done => exact .slnil
  | grant planned _ ih =>
      have granted := grants_of_planGroup planned
      rw [List.map_cons, granted.value_eq, granted.sites_eq]
      exact ih.cons_cons _
  | skip _ _ ih => exact ih.cons _

theorem names (planning : Planning settings existing scope found groups skipped) :
    (groups.map Group.name).Nodup ∧ ∀ g ∈ groups, g.name ∉ scope.committed := by
  induction planning with
  | done => simp
  | grant planned _ ih =>
      have free := (grants_of_planGroup planned).name_free
      have apart := ih.2
      simp only [Scope.commit, List.mem_cons, not_or] at apart
      constructor
      · rw [List.map_cons, List.nodup_cons]
        refine ⟨fun repeated => ?_, ih.1⟩
        obtain ⟨g', member, same⟩ := List.mem_map.mp repeated
        exact (apart g' member).1 same
      · intro g' member
        rcases List.mem_cons.mp member with rfl | later
        · exact free
        · exact (apart g' later).2
  | skip _ _ ih => exact ih

end Planning

end LiteralHoist.Consolidate
