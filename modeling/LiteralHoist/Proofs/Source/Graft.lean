import LiteralHoist.Proofs.Source.Shape

/-!
# New trees in a forest

Members that are put into a class add trees among what is below it.  The numbers that were there
keep their order and their paths.
-/

set_option autoImplicit false

namespace LiteralHoist.Source.Forest

def insertAt : Forest → Nat → Forest → Forest
  | f, 0, new => new.append f
  | nil, _ + 1, new => new
  | cons id below rest, k + 1, new => cons id below (rest.insertAt k new)

/-- The forest with others after the first trees below a number. -/
def graft : Forest → NodeId → Nat → Forest → Forest
  | nil, _, _, _ => nil
  | cons id below rest, c, k, new =>
    cons id (if id = c then below.insertAt k new else below.graft c k new) (rest.graft c k new)

variable {t t' : Tree} {c : NodeId} {k : Nat} {new : Forest}

theorem roots_insertAt (f : Forest) (new : Forest) : ∀ k : Nat,
    (f.insertAt k new).roots = f.roots.take k ++ (new.roots ++ f.roots.drop k) := by
  induction f with
  | nil => intro k; cases k <;> simp [insertAt, roots, roots_append]
  | cons id below rest _ ih =>
      intro k
      cases k with
      | zero => simp [insertAt, roots_append]
      | succ k => simp [insertAt, roots, ih]

theorem perm_ids_insertAt (f : Forest) (new : Forest) : ∀ k : Nat,
    (f.insertAt k new).ids.Perm (new.ids ++ f.ids) := by
  induction f with
  | nil => intro k; cases k <;> simp [insertAt, ids, ids_append]
  | cons id below rest _ ih =>
      intro k
      cases k with
      | zero => simp [insertAt, ids_append]
      | succ k =>
          simp only [insertAt, ids]
          refine ((ih k).append_left below.ids |>.cons id).trans ?_
          refine (((List.perm_append_comm_assoc _ _ _)).cons id).trans ?_
          exact List.perm_middle.symm

theorem graft_of_notMem {f : Forest} (absent : c ∉ f.ids) : f.graft c k new = f := by
  induction f with
  | nil => rfl
  | cons id below rest ihBelow ihRest =>
      simp only [ids, List.mem_cons, List.mem_append, not_or] at absent
      simp [graft, Ne.symm absent.1, ihBelow absent.2.1, ihRest absent.2.2]

theorem roots_graft (f : Forest) : (f.graft c k new).roots = f.roots := by
  induction f with
  | nil => rfl
  | cons id below rest _ ih => simp [graft, roots, ih]

theorem perm_ids_graft {f : Forest} (member : c ∈ f.ids) (nodup : f.ids.Nodup) :
    (f.graft c k new).ids.Perm (new.ids ++ f.ids) := by
  induction f with
  | nil => simp [ids] at member
  | cons id below rest ihBelow ihRest =>
      simp only [ids, List.nodup_cons, List.mem_append, not_or, List.nodup_append] at nodup
      obtain ⟨⟨_, notRest⟩, nodupBelow, nodupRest, apart⟩ := nodup
      simp only [ids, List.mem_cons, List.mem_append] at member
      simp only [graft, ids]
      rcases member with same | inside | later
      · subst same
        rw [graft_of_notMem notRest, if_pos rfl]
        refine (((perm_ids_insertAt below new k).append_right rest.ids).cons c).trans ?_
        rw [List.append_assoc]
        exact List.perm_middle.symm
      · have notLater : c ∉ rest.ids := fun later => apart c inside c later rfl
        have other : id ≠ c := by
          rintro rfl
          simp_all
        rw [graft_of_notMem notLater, if_neg other]
        refine (((ihBelow inside nodupBelow).append_right rest.ids).cons id).trans ?_
        rw [List.append_assoc]
        exact List.perm_middle.symm
      · have notInside : c ∉ below.ids := fun inside => apart c inside c later rfl
        have other : id ≠ c := by
          rintro rfl
          exact notRest later
        rw [if_neg other, graft_of_notMem notInside]
        refine (((ihRest later nodupRest).append_left below.ids).cons id).trans ?_
        refine ((List.perm_append_comm_assoc _ _ _).cons id).trans ?_
        exact List.perm_middle.symm

theorem visits_append (f g : Forest) (above : Path) :
    (f.append g).visits above = f.visits above ++ g.visits above := by
  induction f with
  | nil => rfl
  | cons id below rest _ ih => simp [append, visits, ih]

theorem filter_visits_eq_nil {keep : NodeId → Bool} {f : Forest}
    (dropped : ∀ id ∈ f.ids, keep id = false) (above : Path) :
    (f.visits above).filter (fun v => keep v.1) = [] := by
  rw [List.filter_eq_nil_iff]
  intro v member
  simp [dropped v.1 (fst_mem_of_visits member)]

theorem filter_visits_insertAt {keep : NodeId → Bool} {new : Forest}
    (dropped : ∀ id ∈ new.ids, keep id = false) (f : Forest) (above : Path) : ∀ k : Nat,
    ((f.insertAt k new).visits above).filter (fun v => keep v.1) =
      (f.visits above).filter fun v => keep v.1 := by
  induction f with
  | nil =>
      intro k
      cases k with
      | zero => simp [insertAt, visits_append, filter_visits_eq_nil dropped]
      | succ k => simp [insertAt, filter_visits_eq_nil dropped, visits]
  | cons id below rest _ ih =>
      intro k
      cases k with
      | zero => simp [insertAt, visits_append, filter_visits_eq_nil dropped]
      | succ k => simp [insertAt, visits, List.filter_cons, ih k]

/-- What is new and emits nothing does not show. -/
theorem flatMap_visits_insertAt {α : Type} {emit : NodeId × Path → List α} {new : Forest}
    {above : Path} (silent : ∀ v ∈ new.visits above, emit v = []) (f : Forest) : ∀ k : Nat,
    ((f.insertAt k new).visits above).flatMap emit = (f.visits above).flatMap emit := by
  have nothing : (new.visits above).flatMap emit = [] := List.flatMap_eq_nil_iff.mpr silent
  induction f with
  | nil => intro k; cases k <;> simp [insertAt, visits_append, visits, nothing]
  | cons id below rest _ ih =>
      intro k
      cases k with
      | zero => simp [insertAt, visits_append, nothing]
      | succ k => simp [insertAt, visits, ih k]

theorem filter_visits_graft {keep : NodeId → Bool} {new : Forest}
    (dropped : ∀ id ∈ new.ids, keep id = false) (f : Forest) : ∀ above : Path,
    ((f.graft c k new).visits above).filter (fun v => keep v.1) =
      (f.visits above).filter fun v => keep v.1 := by
  induction f with
  | nil => intro above; rfl
  | cons id below rest ihBelow ihRest =>
      intro above
      simp only [graft, visits, List.filter_cons, List.filter_append, ihRest above]
      by_cases same : id = c
      · rw [if_pos same, filter_visits_insertAt dropped]
      · rw [if_neg same, ihBelow]

theorem filter_ids_graft {keep : NodeId → Bool} {new : Forest}
    (dropped : ∀ id ∈ new.ids, keep id = false) (f : Forest) :
    (f.graft c k new).ids.filter keep = f.ids.filter keep := by
  have visits := filter_visits_graft (c := c) (k := k) dropped f []
  have numbers := congrArg (List.map Prod.fst) visits
  have pull : ∀ g : Forest, ((g.visits []).filter fun v => keep v.1).map Prod.fst =
      g.ids.filter keep := by
    intro g
    rw [← map_fst_visits g [], List.filter_map]
    rfl
  rwa [pull, pull] at numbers

theorem clip_append (enter : NodeId → Bool) (f g : Forest) :
    (f.append g).clip enter = (f.clip enter).append (g.clip enter) := by
  induction f with
  | nil => rfl
  | cons id below rest _ ih => simp [append, clip, ih]

theorem clip_insertAt (enter : NodeId → Bool) (f new : Forest) : ∀ k : Nat,
    (f.insertAt k new).clip enter = (f.clip enter).insertAt k (new.clip enter) := by
  induction f with
  | nil => intro k; cases k <;> simp [insertAt, clip, clip_append]
  | cons id below rest _ ih =>
      intro k
      cases k with
      | zero => simp [insertAt, clip, clip_append]
      | succ k => simp [insertAt, clip, ih k]

/-- What is new below a number that is not entered is not seen. -/
theorem clip_graft {enter : NodeId → Bool} (closed : enter c = false) (f : Forest) :
    (f.graft c k new).clip enter = f.clip enter := by
  induction f with
  | nil => rfl
  | cons id below rest ihBelow ihRest =>
      by_cases same : id = c
      · simp [graft, clip, same, closed, ihRest]
      · simp [graft, clip, same, ihBelow, ihRest]

theorem Occurs.append {f g below : Forest} {id : NodeId}
    (occurs : f.Occurs id below ∨ g.Occurs id below) : (f.append g).Occurs id below := by
  induction f with
  | nil => exact occurs.resolve_left fun absurd => absurd
  | cons i b rest _ ih =>
      rcases occurs with (here | inside | later) | after
      · exact .inl here
      · exact .inr (.inl inside)
      · exact .inr (.inr (ih (.inl later)))
      · exact .inr (.inr (ih (.inr after)))

theorem Occurs.insertAt {f below : Forest} {id : NodeId} (occurs : f.Occurs id below)
    (new : Forest) : ∀ k : Nat, (f.insertAt k new).Occurs id below := by
  induction f with
  | nil => exact occurs.elim
  | cons i b rest _ ih =>
      intro k
      cases k with
      | zero => exact Occurs.append (.inr occurs)
      | succ k =>
          rcases occurs with here | inside | later
          · exact .inl here
          · exact .inr (.inl inside)
          · exact .inr (.inr (ih later k))

theorem Occurs.graft_self {f below : Forest} (occurs : f.Occurs c below)
    (nodup : f.ids.Nodup) : (f.graft c k new).Occurs c (below.insertAt k new) := by
  induction f with
  | nil => exact occurs.elim
  | cons i b rest ihBelow ihRest =>
      simp only [ids, List.nodup_cons, List.mem_append, not_or, List.nodup_append] at nodup
      obtain ⟨⟨notBelow, notRest⟩, nodupBelow, nodupRest, _⟩ := nodup
      rcases occurs with ⟨rfl, rfl⟩ | inside | later
      · exact .inl ⟨rfl, by rw [if_pos rfl]⟩
      · have other : i ≠ c := by
          rintro rfl
          exact notBelow (inside.sublist.subset (by simp))
        refine .inr (.inl ?_)
        rw [if_neg other]
        exact ihBelow inside nodupBelow
      · exact .inr (.inr (ihRest later nodupRest))

theorem Occurs.graft_other {f below : Forest} {id : NodeId} (occurs : f.Occurs id below)
    (other : id ≠ c) (nodup : f.ids.Nodup) :
    (f.graft c k new).Occurs id (below.graft c k new) := by
  induction f with
  | nil => exact occurs.elim
  | cons i b rest ihBelow ihRest =>
      simp only [ids, List.nodup_cons, List.mem_append, not_or, List.nodup_append] at nodup
      obtain ⟨⟨notBelow, _⟩, nodupBelow, nodupRest, _⟩ := nodup
      rcases occurs with ⟨rfl, rfl⟩ | inside | later
      · exact .inl ⟨rfl, by rw [if_neg other]⟩
      · refine .inr (.inl ?_)
        by_cases same : i = c
        · subst same
          have absent : i ∉ below.ids := fun member =>
            notBelow (inside.sublist.subset (List.mem_cons_of_mem _ member))
          rw [if_pos rfl, graft_of_notMem absent]
          exact inside.insertAt new k
        · rw [if_neg same]
          exact ihBelow inside nodupBelow
      · exact .inr (.inr (ihRest later nodupRest))

theorem Follows.insertAt {f new : Forest} (follows : f.Follows t) (followsNew : new.Follows t) :
    ∀ k : Nat, (f.insertAt k new).Follows t := by
  induction f with
  | nil =>
      intro k
      cases k with
      | zero => exact followsNew.append follows
      | succ k => exact followsNew
  | cons id below rest _ ih =>
      intro k
      cases k with
      | zero => exact followsNew.append follows
      | succ k => exact ⟨follows.1, follows.2.1, ih follows.2.2 k⟩

/-- An edit that keeps the children of every node is followed by the same forest. -/
theorem Follows.of_same_children {f : Forest} (follows : f.Follows t)
    (same : ∀ id ∈ f.ids, ∀ n, t.Holds id n →
      ∃ n', t'.Holds id n' ∧ n'.form.children = n.form.children) : f.Follows t' := by
  induction f with
  | nil => trivial
  | cons id below rest ihBelow ihRest =>
      obtain ⟨⟨n, held, children⟩, followsBelow, followsRest⟩ := follows
      obtain ⟨n', held', children'⟩ := same id (by simp [ids]) n held
      refine ⟨⟨n', held', children'.trans children⟩, ihBelow followsBelow ?_,
        ihRest followsRest ?_⟩
      · exact fun i member => same i (by simp [ids, member])
      · exact fun i member => same i (by simp [ids, member])

/-- An edit that gives new children to one node is followed by the forest with their trees. -/
theorem Follows.graft {f : Forest} (follows : f.Follows t) (nodup : f.ids.Nodup)
    (followsNew : new.Follows t')
    (same : ∀ id ∈ f.ids, id ≠ c → ∀ n, t.Holds id n →
      ∃ n', t'.Holds id n' ∧ n'.form.children = n.form.children)
    (changed : ∀ n, t.Holds c n → ∃ n', t'.Holds c n' ∧ n'.form.children =
      n.form.children.take k ++ (new.roots ++ n.form.children.drop k)) :
    (f.graft c k new).Follows t' := by
  induction f with
  | nil => trivial
  | cons id below rest ihBelow ihRest =>
      obtain ⟨⟨n, held, children⟩, followsBelow, followsRest⟩ := follows
      simp only [ids, List.nodup_cons, List.mem_append, not_or, List.nodup_append] at nodup
      obtain ⟨⟨notBelow, _⟩, nodupBelow, nodupRest, _⟩ := nodup
      have later := ihRest followsRest nodupRest
        fun i member => same i (by simp [ids, member])
      simp only [Forest.graft]
      by_cases here : id = c
      · subst here
        rw [if_pos rfl]
        obtain ⟨n', held', children'⟩ := changed n held
        refine ⟨⟨n', held', ?_⟩, ?_, later⟩
        · rw [children', children, roots_insertAt]
        · refine Follows.insertAt (followsBelow.of_same_children ?_) followsNew k
          intro i member
          exact same i (by simp [ids, member]) (by rintro rfl; exact notBelow member)
      · rw [if_neg here]
        obtain ⟨n', held', children'⟩ := same id (by simp [ids]) here n held
        refine ⟨⟨n', held', ?_⟩, ?_, later⟩
        · rw [children', children, roots_graft]
        · exact ihBelow followsBelow nodupBelow fun i member => same i (by simp [ids, member])

end LiteralHoist.Source.Forest
