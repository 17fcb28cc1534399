import LiteralHoist.Proofs.Source.Forest
import LiteralHoist.Proofs.Source.Trail

/-!
# Walks over forests

A walk of a tree is a run over the forest that the tree follows: the depth that bounds the walk is
never reached, because no number comes twice in the forest.  A visitor that only gathers leaves what
it gathers at each visit, in the order of the visits; where it does not go on to the children, the
forest is clipped.
-/

set_option autoImplicit false

namespace LiteralHoist.Source

namespace Forest

variable {t : Tree} {σ α : Type}

def run (visitor : Visitor σ) : Path → Forest → σ → Except Fault σ
  | _, nil, gathered => .ok gathered
  | above, cons id below rest, gathered => do
    let (descend, gathered) ← visitor (id :: above) gathered
    let gathered ← if descend then below.run visitor (id :: above) gathered else .ok gathered
    rest.run visitor above gathered

/-- A tour of the roots of a forest is the run over the forest. -/
theorem foldlM_tour (visitor : Visitor σ) (f : Forest) (follows : f.Follows t) :
    ∀ (depth : Nat) (above : Path) (gathered : σ), f.height ≤ depth →
      f.roots.foldlM (t.tour visitor depth above) gathered = f.run visitor above gathered := by
  induction f with
  | nil => intro depth above gathered _; rfl
  | cons id below rest ihBelow ihRest =>
      intro depth above gathered deep
      obtain ⟨⟨n, held, children⟩, followsBelow, followsRest⟩ := follows
      simp only [height] at deep
      obtain ⟨less, rfl⟩ : ∃ less, depth = less + 1 := ⟨depth - 1, by omega⟩
      have later := fun g => ihRest followsRest (less + 1) above g (by omega)
      simp only [roots, List.foldlM_cons, Tree.tour, run]
      cases visitor (id :: above) gathered with
      | error fault => rfl
      | ok answer =>
          obtain ⟨descend, gathered'⟩ := answer
          simp only [ok_bind]
          cases descend with
          | false => exact later gathered'
          | true =>
              have inside := ihBelow followsBelow less (id :: above) gathered' (by omega)
              simp only [if_true, held.children_eq, children, ok_bind, inside]
              exact bind_congr later

/-- A walk is the run over the forest at its root. -/
theorem walk_eq_run (visitor : Visitor σ) {id : NodeId} {below : Forest}
    (follows : (cons id below nil).Follows t) (nodup : (cons id below nil).ids.Nodup)
    (start : σ) : t.walk visitor id start = (cons id below nil).run visitor [] start := by
  obtain ⟨n, held⟩ := follows.holds (show id ∈ (cons id below nil).ids by simp [ids])
  have deep : (cons id below nil).height ≤ t.size + 1 := by
    have first := height_le_length (cons id below nil)
    have second := length_le_size follows nodup
    omega
  have fold := foldlM_tour visitor (cons id below nil) follows (t.size + 1) [] start deep
  simp only [roots, List.foldlM_cons, List.foldlM_nil, bind_pure] at fold
  rw [Tree.walk_eq_tour, if_neg held.ne_zero, fold]

theorem walk_zero (visitor : Visitor σ) (start : σ) : t.walk visitor 0 start = .ok start :=
  rfl

/-- What a visitor gathers that goes on below the numbers that are entered. -/
theorem run_gather (visitor : Visitor (List α)) (enter : NodeId → Bool)
    (emit : NodeId × Path → List α) (f : Forest) :
    ∀ (above : Path) (gathered : List α),
      (∀ v ∈ f.visits above, ∀ g,
        visitor (v.1 :: v.2) g = .ok (enter v.1, (emit v).reverse ++ g)) →
      f.run visitor above gathered =
        .ok ((((f.clip enter).visits above).flatMap emit).reverse ++ gathered) := by
  induction f with
  | nil => intro above gathered _; rfl
  | cons id below rest ihBelow ihRest =>
      intro above gathered answers
      have here := answers (id, above) (by simp [visits]) gathered
      have inside : ∀ v ∈ below.visits (id :: above), ∀ g,
          visitor (v.1 :: v.2) g = .ok (enter v.1, (emit v).reverse ++ g) := by
        intro v member
        exact answers v (by simp [visits, member])
      have later : ∀ v ∈ rest.visits above, ∀ g,
          visitor (v.1 :: v.2) g = .ok (enter v.1, (emit v).reverse ++ g) := by
        intro v member
        exact answers v (by simp [visits, member])
      simp only [run, here, ok_bind]
      cases entered : enter id with
      | false => simp [ihRest above _ later, clip, visits, entered]
      | true =>
          simp [ihBelow (id :: above) _ inside, ihRest above _ later, clip, visits, entered,
            ok_bind]

/-- What a visitor finds that looks for a hit and goes no further after the first. -/
theorem run_search (visitor : Visitor Bool) (hit : NodeId → Bool) (f : Forest) :
    ∀ (above : Path) (found : Bool),
      (∀ v ∈ f.visits above, visitor (v.1 :: v.2) true = .ok (false, true) ∧
        visitor (v.1 :: v.2) false = .ok (!hit v.1, hit v.1)) →
      f.run visitor above found = .ok (found || f.ids.any hit) := by
  induction f with
  | nil => intro above found _; simp [run, ids]
  | cons id below rest ihBelow ihRest =>
      intro above found answers
      have here := answers (id, above) (by simp [visits])
      have inside := ihBelow (id :: above) false
        fun v member => answers v (by simp [visits, member])
      have later := fun found => ihRest above found
        fun v member => answers v (by simp [visits, member])
      cases found with
      | true => simp [run, here.1, later, ok_bind]
      | false =>
          simp only [run, here.2, ok_bind]
          cases found : hit id with
          | true => simp [later, ids, found]
          | false => simp [inside, later, ok_bind, ids, found]

theorem clip_all (f : Forest) : f.clip (fun _ => true) = f := by
  induction f with
  | nil => rfl
  | cons id below rest ihBelow ihRest => simp [clip, ihBelow, ihRest]

theorem clip_congr {enter other : NodeId → Bool} {f : Forest}
    (agree : ∀ id ∈ f.ids, enter id = other id) : f.clip enter = f.clip other := by
  induction f with
  | nil => rfl
  | cons id below rest ihBelow ihRest =>
      have inside := ihBelow fun i member => agree i (by simp [ids, member])
      have later := ihRest fun i member => agree i (by simp [ids, member])
      simp [clip, agree id (by simp [ids]), inside, later]

theorem ids_clip_sublist (enter : NodeId → Bool) (f : Forest) :
    (f.clip enter).ids.Sublist f.ids := by
  induction f with
  | nil => exact .slnil
  | cons id below rest ihBelow ihRest =>
      simp only [clip, ids]
      refine List.Sublist.cons_cons _ (List.Sublist.append ?_ ihRest)
      split
      · exact ihBelow
      · exact List.nil_sublist _

theorem visits_clip_sublist (enter : NodeId → Bool) (f : Forest) :
    ∀ above : Path, ((f.clip enter).visits above).Sublist (f.visits above) := by
  induction f with
  | nil => intro above; exact .slnil
  | cons id below rest ihBelow ihRest =>
      intro above
      simp only [clip, visits]
      refine List.Sublist.cons_cons _ (List.Sublist.append ?_ (ihRest above))
      split
      · exact ihBelow (id :: above)
      · exact List.nil_sublist _

theorem walk_gather (visitor : Visitor (List α)) (enter : NodeId → Bool)
    (emit : NodeId × Path → List α) {id : NodeId} {below : Forest}
    (follows : (cons id below nil).Follows t) (nodup : (cons id below nil).ids.Nodup)
    (answers : ∀ v ∈ (cons id below nil).visits [], ∀ g,
      visitor (v.1 :: v.2) g = .ok (enter v.1, (emit v).reverse ++ g)) :
    List.reverse <$> t.walk visitor id [] =
      .ok ((((cons id below nil).clip enter).visits []).flatMap emit) := by
  rw [walk_eq_run visitor follows nodup, run_gather visitor enter emit _ [] [] answers]
  simp [Functor.map, Except.map]

/-- What a gathering walk leaves that enters every node and looks only at the node. -/
theorem walk_gather_ids (visitor : Visitor (List α)) (emit : NodeId → List α) {id : NodeId}
    {below : Forest} (follows : (cons id below nil).Follows t)
    (nodup : (cons id below nil).ids.Nodup)
    (answers : ∀ v ∈ (cons id below nil).visits [], ∀ g,
      visitor (v.1 :: v.2) g = .ok (true, (emit v.1).reverse ++ g)) :
    List.reverse <$> t.walk visitor id [] = .ok ((cons id below nil).ids.flatMap emit) := by
  rw [walk_gather visitor (fun _ => true) (fun v => emit v.1) follows nodup answers, clip_all,
    ← map_fst_visits (cons id below nil) [], List.flatMap_map]

/-- What a walk leaves that enters every node and keeps the numbers that are selected. -/
theorem walk_select (visitor : Visitor (List NodeId)) (select : NodeId → Bool) {id : NodeId}
    {below : Forest} (follows : (cons id below nil).Follows t)
    (nodup : (cons id below nil).ids.Nodup)
    (answers : ∀ v ∈ (cons id below nil).visits [], ∀ g,
      visitor (v.1 :: v.2) g = .ok (true, if select v.1 then v.1 :: g else g)) :
    List.reverse <$> t.walk visitor id [] = .ok ((cons id below nil).ids.filter select) := by
  have flat : (cons id below nil).ids.filter select =
      (cons id below nil).ids.flatMap fun i => if select i then [i] else [] := by
    induction (cons id below nil).ids with
    | nil => rfl
    | cons i rest ih => cases selected : select i <;> simp [selected, ih]
  rw [flat]
  refine walk_gather_ids visitor _ follows nodup fun v member gathered => ?_
  rw [answers v member gathered]
  cases select v.1 <;> rfl

theorem mem_of_visits {f : Forest} : ∀ {above : Path} {v : NodeId × Path},
    v ∈ f.visits above → ∀ p ∈ v.2, p ∈ above ∨ p ∈ f.ids := by
  induction f with
  | nil => intro above v member; simp [visits] at member
  | cons id below rest ihBelow ihRest =>
      intro above v member p onPath
      simp only [visits, List.mem_cons, List.mem_append] at member
      rcases member with rfl | inside | later
      · exact .inl onPath
      · rcases ihBelow inside p onPath with up | down
        · rcases List.mem_cons.mp up with rfl | up
          · exact .inr (by simp [ids])
          · exact .inl up
        · exact .inr (by simp [ids, down])
      · rcases ihRest later p onPath with up | down
        · exact .inl up
        · exact .inr (by simp [ids, down])

theorem fst_mem_of_visits {f : Forest} {above : Path} {v : NodeId × Path}
    (member : v ∈ f.visits above) : v.1 ∈ f.ids := by
  rw [← map_fst_visits f above]
  exact List.mem_map_of_mem member

theorem exists_visit {f : Forest} (above : Path) {id : NodeId} (member : id ∈ f.ids) :
    ∃ up, (id, up) ∈ f.visits above := by
  rw [← map_fst_visits f above] at member
  obtain ⟨⟨i, up⟩, visited, rfl⟩ := List.mem_map.mp member
  exact ⟨up, visited⟩

/-- The path of a visit starts with the parent, and goes on with the path of the parent. -/
theorem visit_parent {f : Forest} (follows : f.Follows t) :
    ∀ {above : Path} {id : NodeId} {up : Path}, (id, up) ∈ f.visits above →
      (id ∈ f.roots ∧ up = above) ∨
        ∃ p up', up = p :: up' ∧ (p, up') ∈ f.visits above ∧ t.Child p id := by
  induction f with
  | nil => intro above id up member; simp [visits] at member
  | cons i below rest ihBelow ihRest =>
      intro above id up member
      obtain ⟨⟨n, held, children⟩, followsBelow, followsRest⟩ := follows
      simp only [visits, List.mem_cons, List.mem_append, Prod.mk.injEq] at member
      rcases member with ⟨rfl, rfl⟩ | inside | later
      · exact .inl ⟨by simp [roots], rfl⟩
      · rcases ihBelow followsBelow inside with ⟨isRoot, rfl⟩ | ⟨p, up', rfl, visited, child⟩
        · refine .inr ⟨i, above, rfl, by simp [visits], n, held, ?_⟩
          rw [children]
          exact isRoot
        · exact .inr ⟨p, up', rfl, by simp [visits, visited], child⟩
      · rcases ihRest followsRest later with ⟨isRoot, rfl⟩ | ⟨p, up', rfl, visited, child⟩
        · exact .inl ⟨by simp [roots, isRoot], rfl⟩
        · exact .inr ⟨p, up', rfl, by simp [visits, visited], child⟩

end Forest

end LiteralHoist.Source
