import LiteralHoist.Proofs.Source.Arena
import LiteralHoist.Source.Walk

/-!
# The buffer of a walk

A walk keeps its path at the end of a buffer that all visits share.  Growing the buffer moves the
path and leaves old numbers in front of it, but the path itself is what it was; so every visitor
sees the path of its node, and the buffer is free again when the walk is over.  `Tree.tour` is the
same walk with the path handed down from visit to visit.
-/

set_option autoImplicit false

namespace LiteralHoist.Source

namespace Trail

/-- The path starts in the buffer, or right behind it. -/
def Fits (s : Trail) : Prop :=
  s.start ≤ s.cells.length

theorem length_path (s : Trail) : s.path.length = s.cells.length - s.start := by
  simp [path]

theorem drop_copyFirst {count target : Nat} {cells : List NodeId}
    (bound : target ≤ cells.length) :
    (copyFirst count target cells).drop target =
      cells.take count ++ cells.drop (target + count) := by
  have front : (cells.take target).length = target := List.length_take_of_le bound
  rw [copyFirst, List.append_assoc, List.drop_left' front]

variable (growth : Growth)

theorem fits_grown {s : Trail} (fits : s.Fits) : (s.grown growth).Fits := by
  have more := growth.enough s.cells.length
  unfold grown
  split
  · simp only [Fits, copyFirst, List.length_append, List.length_take, List.length_drop,
      List.length_replicate]
    omega
  · exact fits

theorem start_grown_pos (s : Trail) : 0 < (s.grown growth).start := by
  have more := growth.enough s.cells.length
  unfold grown
  split
  · simp only [List.length_append, List.length_replicate]
    omega
  · omega

/-- The copy brings the whole path to the end of the larger buffer. -/
theorem path_grown (s : Trail) : (s.grown growth).path = s.path := by
  have more := growth.enough s.cells.length
  unfold grown
  split
  · rename_i full
    have room : s.cells.length ≤
        (s.cells ++ List.replicate (growth.cells s.cells.length - s.cells.length) 0).length := by
      simp
    simp only [path]
    rw [drop_copyFirst (Nat.sub_le _ _), Nat.sub_add_cancel room, List.drop_length,
      List.append_nil, List.take_left, full, List.drop_zero]
  · rfl

theorem path_push {s : Trail} (fits : s.Fits) (id : NodeId) :
    (s.push growth id).path = id :: s.path := by
  have positive := start_grown_pos growth s
  have same := path_grown growth s
  have bound : (s.grown growth).start ≤ (s.grown growth).cells.length := fits_grown growth fits
  have inside : (s.grown growth).start - 1 <
      ((s.grown growth).cells.set ((s.grown growth).start - 1) id).length := by
    rw [List.length_set]
    omega
  have next : (s.grown growth).start - 1 + 1 = (s.grown growth).start := by omega
  rw [← same]
  simp only [push, path]
  rw [List.drop_eq_getElem_cons inside, List.getElem_set_self, next,
    List.drop_set_of_lt (by omega)]

theorem fits_push {s : Trail} (fits : s.Fits) (id : NodeId) : (s.push growth id).Fits := by
  have bound : (s.grown growth).start ≤ (s.grown growth).cells.length := fits_grown growth fits
  simp only [Fits, push, List.length_set]
  omega

theorem path_pop (s : Trail) : s.pop.path = s.path.tail := by
  simp [pop, path]

theorem fits_pop {s : Trail} {id : NodeId} {above : Path} (path : s.path = id :: above) :
    s.pop.Fits := by
  have positive := s.length_path
  rw [path, List.length_cons] at positive
  simp only [Fits, pop]
  omega

end Trail

namespace Tree
variable {σ : Type}

/-- Visits a node below a path, and what is below the node as far as the visitor asks for it. -/
def tour (t : Tree) (visitor : Visitor σ) : Nat → Path → σ → NodeId → Except Fault σ
  | 0, _, _, _ => .error .endless
  | depth + 1, above, gathered, id => do
    let (descend, gathered) ← visitor (id :: above) gathered
    if descend then (← t.children id).foldlM (t.tour visitor depth (id :: above)) gathered
    else return gathered

variable (t : Tree) (growth : Growth) (visitor : Visitor σ)

/-- A trail that shows the path after a computation, with what the computation gathers. -/
def LeavesPath (above : Path) (visited : Except Fault (Trail × σ)) (toured : Except Fault σ) :
    Prop :=
  ∃ trail : Trail, trail.Fits ∧ trail.path = above ∧ visited = (trail, ·) <$> toured

theorem foldlM_leavesPath {depth : Nat} {above : Path}
    (each : ∀ (trail : Trail) (gathered : σ) (id : NodeId), trail.Fits → trail.path = above →
      LeavesPath above (t.visit growth visitor depth (trail, gathered) id)
        (t.tour visitor depth above gathered id)) (ids : List NodeId) :
    ∀ (trail : Trail) (gathered : σ), trail.Fits → trail.path = above →
      LeavesPath above (ids.foldlM (t.visit growth visitor depth) (trail, gathered))
        (ids.foldlM (t.tour visitor depth above) gathered) := by
  induction ids with
  | nil =>
      intro trail gathered fits path
      exact ⟨trail, fits, path, rfl⟩
  | cons id rest ih =>
      intro trail gathered fits path
      obtain ⟨next, fits', path', first⟩ := each trail gathered id fits path
      rw [List.foldlM_cons, List.foldlM_cons, first]
      cases t.tour visitor depth above gathered id with
      | error fault => exact ⟨next, fits', path', rfl⟩
      | ok gathered' => exact ih next gathered' fits' path'

/-- A visit shows the visitor the paths of a tour and leaves the path of the trail as it was. -/
theorem visit_leavesPath (depth : Nat) :
    ∀ (above : Path) (trail : Trail) (gathered : σ) (id : NodeId), trail.Fits →
      trail.path = above →
        LeavesPath above (t.visit growth visitor depth (trail, gathered) id)
          (t.tour visitor depth above gathered id) := by
  induction depth with
  | zero =>
      intro above trail gathered id fits path
      exact ⟨trail, fits, path, rfl⟩
  | succ depth ih =>
      intro above trail gathered id fits path
      have fits' := Trail.fits_push growth fits id
      have path' : (trail.push growth id).path = id :: above := by
        rw [Trail.path_push growth fits, path]
      have popped : ∀ next : Trail, next.path = id :: above → next.pop.path = above := by
        intro next shows
        rw [Trail.path_pop, shows, List.tail_cons]
      rw [visit, tour, path']
      cases visitor (id :: above) gathered with
      | error fault => exact ⟨trail, fits, path, rfl⟩
      | ok answer =>
          obtain ⟨descend, gathered'⟩ := answer
          cases descend with
          | false => exact ⟨_, Trail.fits_pop path', popped _ path', rfl⟩
          | true =>
              simp only [ok_bind, if_true]
              cases t.children id with
              | error fault => exact ⟨trail, fits, path, rfl⟩
              | ok ids =>
                  obtain ⟨next, _, shows, inside⟩ := foldlM_leavesPath t growth visitor
                    (ih (id :: above)) ids _ gathered' fits' path'
                  simp only [ok_bind, inside]
                  refine ⟨next.pop, Trail.fits_pop shows, popped next shows, ?_⟩
                  cases ids.foldlM (t.tour visitor depth (id :: above)) gathered' <;> rfl

/-- Whatever the buffer grows by, a walk is a tour, and it ends with a free buffer. -/
theorem walkGrowing_eq_tour (root : NodeId) (start : σ) :
    t.walkGrowing growth visitor root start =
      if root = 0 then .ok start else t.tour visitor (t.size + 1) [] start root := by
  by_cases absent : root = 0
  · rw [walkGrowing, if_pos absent, if_pos absent]
    rfl
  · obtain ⟨trail, fits, path, visited⟩ := t.visit_leavesPath growth visitor (t.size + 1) []
      {} start root (Nat.le_refl 0) rfl
    rw [walkGrowing, if_neg absent, if_neg absent, visited]
    cases t.tour visitor (t.size + 1) [] start root with
    | error fault => rfl
    | ok gathered =>
        have free := trail.length_path
        rw [path, List.length_nil] at free
        have finished : trail.start = trail.cells.length :=
          Nat.le_antisymm fits (Nat.le_of_sub_eq_zero free.symm)
        simp [Functor.map, Except.map, ok_bind, finished, pure_eq_ok]

theorem walk_eq_tour (root : NodeId) (start : σ) :
    t.walk visitor root start =
      if root = 0 then .ok start else t.tour visitor (t.size + 1) [] start root :=
  t.walkGrowing_eq_tour .doubling visitor root start

end Tree

end LiteralHoist.Source
