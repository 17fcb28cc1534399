import LiteralHoist.Patch.Shift
import LiteralHoist.Proofs.Patch.Alignment

/-!
# Shifted runs

A run is moved by a line only where the line that it gains equals the line that it loses, so the
unchanged lines stay the same.  The last move, back to an end that lines up with the other side,
does not look at the lines: it goes back over moves that were made line by line.
-/

set_option autoImplicit false

namespace LiteralHoist.Patch

/-! ## Unchanged lines by their places -/

section Places
variable (lines : Nat → Option Text) {changed changed' : Nat → Bool}

def unchangedBelow (changed : Nat → Bool) (count : Nat) : List Text :=
  (List.range count).filterMap fun k => if changed k then none else lines k

theorem unchangedBelow_succ (changed : Nat → Bool) (count : Nat) :
    unchangedBelow lines changed (count + 1) = unchangedBelow lines changed count ++
      if changed count then [] else (lines count).toList := by
  rw [unchangedBelow, List.range_succ, List.filterMap_append]
  cases here : changed count <;> cases line : lines count <;> simp [unchangedBelow, here, line]

theorem unchangedBelow_congr {count : Nat} (same : ∀ k < count, changed k = changed' k) :
    unchangedBelow lines changed count = unchangedBelow lines changed' count := by
  refine List.filterMap_congr fun k member => ?_
  rw [same k (List.mem_range.mp member)]

theorem unchangedBelow_of_changed {low high : Nat} (order : low ≤ high)
    (all : ∀ k, low ≤ k → k < high → changed k = true) :
    unchangedBelow lines changed high = unchangedBelow lines changed low := by
  induction order with
  | refl => rfl
  | step order ih =>
      rw [unchangedBelow_succ, all _ order (Nat.lt_succ_self _), if_pos rfl, List.append_nil]
      exact ih fun k above below => all k above (by omega)

/-- An unchanged line and the end of the run of changed lines behind it change places if they are
equal. -/
theorem unchangedBelow_swap {i j count : Nat} (order : i < j) (below : j < count)
    (equal : lines i = lines j) (others : ∀ k, k ≠ i → k ≠ j → changed k = changed' k)
    (between : ∀ k, i < k → k ≤ j → changed k = true) (first : changed i = false)
    (gained : changed' i = true) (lost : changed' j = false) :
    unchangedBelow lines changed count = unchangedBelow lines changed' count := by
  have before : unchangedBelow lines changed i = unchangedBelow lines changed' i :=
    unchangedBelow_congr lines fun k small => others k (by omega) (by omega)
  have left : unchangedBelow lines changed (j + 1) =
      unchangedBelow lines changed i ++ (lines i).toList := by
    rw [unchangedBelow_of_changed lines (show i + 1 ≤ j + 1 by omega)
      fun k above small => between k above (by omega), unchangedBelow_succ, first]
    rfl
  have right : unchangedBelow lines changed' (j + 1) =
      unchangedBelow lines changed' i ++ (lines j).toList := by
    have run : ∀ k, i ≤ k → k < j → changed' k = true := by
      intro k above small
      rcases Nat.eq_or_lt_of_le above with rfl | above
      · exact gained
      · rw [← others k (by omega) (by omega)]
        exact between k above (by omega)
    rw [unchangedBelow_succ, lost, unchangedBelow_of_changed lines (Nat.le_of_lt order) run]
    rfl
  have reached : j + 1 ≤ count := below
  induction reached with
  | refl => rw [left, right, before, equal]
  | @step count reached ih =>
      have further : j < count := reached
      rw [unchangedBelow_succ, unchangedBelow_succ, ih further, others _ (by omega) (by omega)]

end Places

theorem unchanged_take (ls : List Text) {flags : List Bool} (fits : flags.length = ls.length) :
    ∀ count ≤ ls.length, unchanged (ls.take count) (flags.take count) =
      unchangedBelow (fun k => ls.toArray[k]?) (flagged flags.toArray) count := by
  intro count enough
  induction count with
  | zero => rfl
  | succ count ih =>
      have inside : count < flags.length := by omega
      have here : flagged flags.toArray count = flags[count] := by
        simp [flagged, inside]
      have size : (flags.take count).length = (ls.take count).length := by
        rw [List.length_take, List.length_take, fits]
      rw [List.take_succ_eq_append_getElem enough, List.take_succ_eq_append_getElem inside,
        unchanged_append size, ih (by omega), unchangedBelow_succ, here, unchanged_cons]
      simp [unchanged, show count < ls.length from enough]

theorem unchanged_eq (ls : List Text) {flags : List Bool} (fits : flags.length = ls.length) :
    unchanged ls flags =
      unchangedBelow (fun k => ls.toArray[k]?) (flagged flags.toArray) ls.length := by
  have whole := unchanged_take ls fits ls.length (Nat.le_refl _)
  rwa [List.take_length, ← fits, List.take_length, fits] at whole

/-! ## Flags of a run -/

theorem flagged_beyond {flags : Array Bool} {k : Nat} (beyond : flags.size ≤ k) :
    flagged flags k = false := by
  simp [flagged, Array.getD, Nat.not_lt.mpr beyond]

theorem flagged_set (flags : Array Bool) {i : Nat} (inside : i < flags.size) (value : Bool)
    (k : Nat) :
    flagged (flags.setIfInBounds i value) k = if k = i then value else flagged flags k := by
  rw [flagged, flagged, Array.getD_eq_getD_getElem?, Array.getD_eq_getD_getElem?,
    Array.getElem?_setIfInBounds]
  by_cases same : k = i
  · simp [same, inside]
  · simp [same, Ne.symm same]

theorem runStart_spec (flags : Array Bool) (k : Nat) : runStart flags k ≤ k ∧
    (∀ j, runStart flags k ≤ j → j < k → flagged flags j = true) ∧
    (0 < runStart flags k → flagged flags (runStart flags k - 1) = false) := by
  induction k with
  | zero => exact ⟨Nat.le_refl 0, fun j _ below => absurd below (Nat.not_lt_zero j), nofun⟩
  | succ k ih =>
      obtain ⟨low, run, edge⟩ := ih
      rw [runStart]
      split
      · rename_i here
        refine ⟨by omega, fun j above below => ?_, edge⟩
        rcases Nat.lt_succ_iff_lt_or_eq.mp below with below | rfl
        · exact run j above below
        · exact here
      · rename_i here
        exact ⟨Nat.le_refl _, fun j above below => absurd below (by omega),
          fun _ => Bool.eq_false_iff.mpr here⟩

theorem runEnd_spec (flags : Array Bool) (k : Nat) : k ≤ runEnd flags k ∧
    (∀ j, k ≤ j → j < runEnd flags k → flagged flags j = true) ∧
    flagged flags (runEnd flags k) = false := by
  induction k using runEnd.induct flags with
  | case1 k inside changed ih =>
      obtain ⟨high, run, edge⟩ := ih
      rw [runEnd, dif_pos inside, if_pos changed]
      refine ⟨by omega, fun j above below => ?_, edge⟩
      rcases Nat.eq_or_lt_of_le above with rfl | above
      · simpa [flagged, inside] using changed
      · exact run j above below
  | case2 k inside kept =>
      rw [runEnd, dif_pos inside, if_neg kept]
      refine ⟨Nat.le_refl k, fun j above below => absurd below (by omega), ?_⟩
      simpa [flagged, inside] using kept
  | case3 k outside =>
      rw [runEnd, dif_neg outside]
      exact ⟨Nat.le_refl k, fun j above below => absurd below (by omega),
        flagged_beyond (Nat.le_of_not_lt outside)⟩

theorem lt_runEnd {flags : Array Bool} {k : Nat} (here : flagged flags k = true) :
    k < runEnd flags k := by
  obtain ⟨high, _, edge⟩ := runEnd_spec flags k
  refine Nat.lt_of_le_of_ne high fun same => ?_
  rw [← same, here] at edge
  contradiction

theorem runEnd_le {flags : Array Bool} {k : Nat} (inside : k ≤ flags.size) :
    runEnd flags k ≤ flags.size := by
  refine Nat.le_of_not_lt fun beyond => ?_
  have changed := (runEnd_spec flags k).2.1 flags.size inside beyond
  rw [flagged_beyond (Nat.le_refl _)] at changed
  contradiction

/-! ## Moves -/

/-- What stays so when a run is moved: it is a run of changed lines, and the unchanged lines are as
given. -/
structure Run.Sound (lines : Array Text) (given : List Text) (r : Run) : Prop where
  size : r.flags.size = lines.size
  nonempty : r.first < r.last
  bound : r.last ≤ lines.size
  inside : ∀ k, r.first ≤ k → k < r.last → flagged r.flags k = true
  after : flagged r.flags r.last = false
  lines : unchangedBelow (fun k => lines[k]?) (flagged r.flags) lines.size = given

def Run.Detached (r : Run) : Prop :=
  0 < r.first → flagged r.flags (r.first - 1) = false

section Moves
variable {lines : Array Text} {given : List Text} {r : Run}

theorem Run.flagged_back (sound : r.Sound lines given) (other : Array Bool) (k : Nat) :
    flagged (r.back other).flags k = if k = r.last - 1 then false
      else if k = r.first - 1 then true else flagged r.flags k := by
  have size := sound.size
  have nonempty := sound.nonempty
  have bound := sound.bound
  rw [Run.back, flagged_set _ (by simp; omega), flagged_set _ (by omega)]

theorem Run.Sound.back (sound : r.Sound lines given) (detached : r.Detached) (room : 0 < r.first)
    (equal : lines[r.first - 1]? = lines[r.last - 1]?) (other : Array Bool) :
    (r.back other).Sound lines given where
  size := by simpa [Run.back] using sound.size
  nonempty := by
    have nonempty := sound.nonempty
    simp only [Run.back]
    omega
  bound := by
    have bound := sound.bound
    simp only [Run.back]
    omega
  inside := by
    have nonempty := sound.nonempty
    intro k above below
    simp only [Run.back] at above below
    rw [Run.flagged_back sound, if_neg (by omega)]
    split
    · rfl
    · exact sound.inside k (by omega) (by omega)
  after := by
    have nonempty := sound.nonempty
    rw [Run.flagged_back sound]
    exact if_pos rfl
  lines := by
    have nonempty := sound.nonempty
    have bound := sound.bound
    rw [← sound.lines]
    have others : ∀ k, k ≠ r.first - 1 → k ≠ r.last - 1 →
        flagged r.flags k = flagged (r.back other).flags k := by
      intro k first last
      rw [Run.flagged_back sound, if_neg last, if_neg first]
    refine (unchangedBelow_swap _ (i := r.first - 1) (j := r.last - 1) (by omega) (by omega) equal
      others (fun k above below => sound.inside k (by omega) (by omega)) (detached room) ?_ ?_).symm
    · rw [Run.flagged_back sound, if_neg (by omega), if_pos rfl]
    · rw [Run.flagged_back sound, if_pos rfl]

/-- A run that takes the changed lines before it in. -/
theorem Run.Sound.extended (sound : r.Sound lines given) :
    Run.Sound lines given { r with first := runStart r.flags r.first } ∧
      Run.Detached { r with first := runStart r.flags r.first } := by
  obtain ⟨low, run, edge⟩ := runStart_spec r.flags r.first
  have nonempty := sound.nonempty
  refine ⟨{ sound with nonempty := Nat.lt_of_le_of_lt low nonempty, inside := ?_ }, edge⟩
  intro k above below
  by_cases old : r.first ≤ k
  · exact sound.inside k old below
  · exact run k above (by omega)

theorem Run.Sound.backWhile (other : Array Bool) (steps : Nat) : ∀ {r : Run},
    r.Sound lines given → r.Detached →
      (r.backWhile lines other steps).Sound lines given ∧
      (r.backWhile lines other steps).Detached ∧
      r.last - r.first ≤
        (r.backWhile lines other steps).last - (r.backWhile lines other steps).first := by
  induction steps with
  | zero => exact fun sound detached => ⟨sound, detached, Nat.le_refl _⟩
  | succ steps ih =>
      intro r sound detached
      rw [Run.backWhile]
      split
      · rename_i goes
        obtain ⟨room, equal⟩ := Bool.and_eq_true_iff.mp goes
        obtain ⟨moved, apart⟩ := (sound.back detached (of_decide_eq_true room) (eq_of_beq equal)
          other).extended
        obtain ⟨last, lastApart, longer⟩ := ih moved apart
        refine ⟨last, lastApart, Nat.le_trans ?_ longer⟩
        have low := (runStart_spec (r.back other).flags (r.back other).first).1
        have first : (r.back other).first = r.first - 1 := rfl
        have last : (r.back other).last = r.last - 1 := rfl
        have := of_decide_eq_true room
        simp only
        omega
      · exact ⟨sound, detached, Nat.le_refl _⟩

def Run.forth (r : Run) (mate : Nat) : Run :=
  let flags := (r.flags.setIfInBounds r.first false).setIfInBounds r.last true
  ⟨flags, r.first + 1, runEnd flags (r.last + 1), mate⟩

theorem Run.flagged_forth (sound : r.Sound lines given) (room : r.last < lines.size)
    (mate k : Nat) : flagged (r.forth mate).flags k = if k = r.last then true
      else if k = r.first then false else flagged r.flags k := by
  have size := sound.size
  have nonempty := sound.nonempty
  rw [Run.forth, flagged_set _ (by simp; omega), flagged_set _ (by omega)]

theorem Run.Sound.forth (sound : r.Sound lines given) (room : r.last < lines.size)
    (equal : lines[r.first]? = lines[r.last]?) (mate : Nat) :
    (r.forth mate).Sound lines given ∧ (r.forth mate).Detached ∧
      r.last + 1 ≤ (r.forth mate).last := by
  have size := sound.size
  have nonempty := sound.nonempty
  have kept : (r.forth mate).flags.size = lines.size := by simpa [Run.forth] using size
  obtain ⟨high, run, edge⟩ := runEnd_spec (r.forth mate).flags (r.last + 1)
  have others : ∀ k, k ≠ r.first → k ≠ r.last →
      flagged (r.forth mate).flags k = flagged r.flags k := by
    intro k first last
    rw [Run.flagged_forth sound room, if_neg last, if_neg first]
  have gained : flagged (r.forth mate).flags r.last = true := by
    rw [Run.flagged_forth sound room, if_pos rfl]
  have lost : flagged (r.forth mate).flags r.first = false := by
    rw [Run.flagged_forth sound room, if_neg (Nat.ne_of_lt nonempty), if_pos rfl]
  have between : ∀ k, r.first < k → k ≤ r.last → flagged (r.forth mate).flags k = true := by
    intro k above below
    rcases Nat.eq_or_lt_of_le below with rfl | below
    · exact gained
    · rw [others k (by omega) (by omega)]
      exact sound.inside k (by omega) below
  refine ⟨⟨kept, ?_, ?_, ?_, edge, ?_⟩, fun _ => lost, high⟩
  · exact Nat.lt_of_lt_of_le (Nat.succ_lt_succ nonempty) high
  · rw [← kept]
    exact runEnd_le (show r.last + 1 ≤ (r.forth mate).flags.size by omega)
  · intro k above below
    by_cases old : k ≤ r.last
    · exact between k above old
    · exact run k (by omega) below
  · rw [← sound.lines]
    exact unchangedBelow_swap _ nonempty room equal others between lost
      (sound.inside _ (Nat.le_refl _) nonempty) sound.after

/-- Back to an end, each line that a run would gain equals the line that it would lose. -/
def Run.Returns (lines : Array Text) (low : Nat) (r : Run) : Prop :=
  ∃ d, d ≤ r.first ∧ low + d = r.last ∧ ∀ i < d,
    lines[r.first - 1 - i]? = lines[r.last - 1 - i]? ∧ flagged r.flags (r.first - 1 - i) = false

theorem Run.returns_last (lines : Array Text) (r : Run) : r.Returns lines r.last :=
  ⟨0, Nat.zero_le _, rfl, fun i below => absurd below (Nat.not_lt_zero i)⟩

theorem Run.Returns.forth {low : Nat} (returns : r.Returns lines low) (sound : r.Sound lines given)
    (room : r.last < lines.size) (equal : lines[r.first]? = lines[r.last]?) {mate : Nat}
    (alone : (r.forth mate).last = r.last + 1) : (r.forth mate).Returns lines low := by
  obtain ⟨d, enough, sum, before⟩ := returns
  have nonempty := sound.nonempty
  refine ⟨d + 1, Nat.succ_le_succ enough, by omega, fun i below => ?_⟩
  have moved : (r.forth mate).first = r.first + 1 := rfl
  rw [alone, moved, Run.flagged_forth sound room]
  cases i with
  | zero => exact ⟨equal, by rw [if_neg (by omega), if_pos (by omega)]⟩
  | succ i =>
      obtain ⟨same, kept⟩ := before i (by omega)
      have first : r.first + 1 - 1 - (i + 1) = r.first - 1 - i := by omega
      have last : r.last + 1 - 1 - (i + 1) = r.last - 1 - i := by omega
      rw [first, last, if_neg (by omega), if_neg (by omega)]
      exact ⟨same, kept⟩

theorem Run.Returns.back {low : Nat} (returns : r.Returns lines low) (sound : r.Sound lines given)
    (further : low < r.last) (other : Array Bool) : (r.back other).Returns lines low := by
  obtain ⟨d, enough, sum, before⟩ := returns
  have nonempty := sound.nonempty
  refine ⟨d - 1, Nat.sub_le_sub_right enough 1, ?_, fun i below => ?_⟩
  · simp only [Run.back]
    omega
  · obtain ⟨same, kept⟩ := before (i + 1) (by omega)
    have first : r.first - 1 - 1 - i = r.first - 1 - (i + 1) := by omega
    have last : r.last - 1 - 1 - i = r.last - 1 - (i + 1) := by omega
    have movedFirst : (r.back other).first = r.first - 1 := rfl
    have movedLast : (r.back other).last = r.last - 1 := rfl
    rw [movedFirst, movedLast, Run.flagged_back sound, first, last, if_neg (by omega),
      if_neg (by omega)]
    exact ⟨same, kept⟩

theorem Run.Sound.backTo (other : Array Bool) {low : Nat} (steps : Nat) : ∀ {r : Run},
    r.Sound lines given → r.Returns lines low → (r.backTo other low steps).Sound lines given := by
  induction steps with
  | zero => exact fun sound _ => sound
  | succ steps ih =>
      intro r sound returns
      rw [Run.backTo]
      split
      · rename_i further
        obtain ⟨d, enough, sum, before⟩ := returns
        obtain ⟨equal, kept⟩ := before 0 (by omega)
        have moved := sound.back (fun _ => kept) (by omega) equal other
        exact ih moved (Run.Returns.back ⟨d, enough, sum, before⟩ sound further other)
      · exact sound

/-- The end to which a run may be moved back: the number of lines stands for none. -/
def Run.MayReturn (lines : Array Text) (aligned : Nat) (r : Run) : Prop :=
  aligned = lines.size ∨ r.Returns lines aligned

theorem Run.Sound.placed {aligned : Nat} (sound : r.Sound lines given) (other : Array Bool)
    (steps : Nat) (returns : r.MayReturn lines aligned) :
    (r.backTo other aligned steps).Sound lines given := by
  rcases returns with rfl | returns
  · cases steps with
    | zero => exact sound
    | succ steps =>
        rw [Run.backTo, if_neg (Nat.not_lt.mpr sound.bound)]
        exact sound
  · exact sound.backTo other steps returns

/-- A run on its way forward, with the end to which it may be moved back.  It may not be moved back
over where it grew, so the end is good only if the run has kept its length. -/
structure Run.Carried (lines : Array Text) (given : List Text) (length : Nat) (moved : Run × Nat) :
    Prop where
  sound : moved.1.Sound lines given
  detached : moved.1.Detached
  long : length ≤ moved.1.last - moved.1.first
  returns : moved.1.last - moved.1.first = length → moved.1.MayReturn lines moved.2

theorem Run.Carried.forwardWhile (other : Array Bool) {length : Nat} (steps : Nat) : ∀ {r : Run}
    {aligned : Nat}, Run.Carried lines given length (r, aligned) →
      Run.Carried lines given length (r.forwardWhile lines other steps aligned) := by
  induction steps with
  | zero => exact fun carried => carried
  | succ steps ih =>
      intro r aligned carried
      rw [Run.forwardWhile]
      split
      · rename_i goes
        obtain ⟨room, equal⟩ := Bool.and_eq_true_iff.mp goes
        have room := of_decide_eq_true room
        have equal := eq_of_beq equal
        have sound : r.Sound lines given := carried.sound
        have long : length ≤ r.last - r.first := carried.long
        obtain ⟨moved, apart, further⟩ := sound.forth room equal (runEnd other (r.mate + 1))
        have first : (r.forth (runEnd other (r.mate + 1))).first = r.first + 1 := rfl
        refine ih (r := r.forth (runEnd other (r.mate + 1)))
          ⟨moved, apart, Nat.le_trans long ?_, fun same => ?_⟩
        · dsimp only
          omega
        · dsimp only at same ⊢
          split
          · exact .inr (Run.returns_last lines _)
          · have nonempty := sound.nonempty
            have unchanged : r.last - r.first = length := by omega
            have alone : (r.forth (runEnd other (r.mate + 1))).last = r.last + 1 := by omega
            exact (carried.returns unchanged).imp id fun back => back.forth sound room equal alone
      · exact carried

theorem Run.Sound.join (other : Array Bool) (steps : Nat) : ∀ {r : Run}, r.Sound lines given →
    r.Detached → (r.join lines other steps).1.Sound lines given ∧
      (r.join lines other steps).1.MayReturn lines (r.join lines other steps).2 := by
  induction steps with
  | zero => exact fun sound _ => ⟨sound, .inl rfl⟩
  | succ steps ih =>
      intro r sound detached
      obtain ⟨backSound, backApart, longer⟩ := sound.backWhile other lines.size detached
      rw [Run.join]
      dsimp only
      generalize r.backWhile lines other lines.size = back at backSound backApart longer ⊢
      have start : back.MayReturn lines
          (if 0 < back.mate && flagged other (back.mate - 1) then back.last else lines.size) := by
        split
        · exact .inr (Run.returns_last lines back)
        · exact .inl rfl
      generalize (if 0 < back.mate && flagged other (back.mate - 1) then back.last
        else lines.size) = aligned at start ⊢
      have carried : Run.Carried lines given (r.last - r.first) (back, aligned) :=
        ⟨backSound, backApart, longer, fun _ => start⟩
      have moved := carried.forwardWhile other lines.size
      split
      · rename_i same
        exact ⟨moved.sound, moved.returns same⟩
      · exact ih moved.sound moved.detached

end Moves

/-! ## Shifting -/

theorem shiftFrom_sound (lines : Array Text) (other : Array Bool) (given : List Text)
    (steps : Nat) : ∀ (flags : Array Bool) (k mate : Nat), flags.size = lines.size →
      unchangedBelow (fun k => lines[k]?) (flagged flags) lines.size = given →
      (flagged flags k = true → 0 < k → flagged flags (k - 1) = false) →
      (shiftFrom lines other steps flags k mate).size = lines.size ∧
      unchangedBelow (fun k => lines[k]?) (flagged (shiftFrom lines other steps flags k mate))
        lines.size = given := by
  induction steps with
  | zero => exact fun flags k mate size unchanged _ => ⟨size, unchanged⟩
  | succ steps ih =>
      intro flags k mate size unchanged edge
      rw [shiftFrom]
      split
      · exact ⟨size, unchanged⟩
      · split
        · rename_i here
          refine ih flags (k + 1) _ size unchanged fun _ _ => ?_
          simpa using here
        · rename_i inside here
          have here : flagged flags k = true := by simpa using here
          obtain ⟨_, run, after⟩ := runEnd_spec flags k
          have sound : Run.Sound lines given ⟨flags, k, runEnd flags k, runEnd other mate⟩ :=
            { size := size
              nonempty := lt_runEnd here
              bound := size ▸ runEnd_le (by omega)
              inside := run
              after := after
              lines := unchanged }
          obtain ⟨joined, returns⟩ := sound.join other (lines.size + 1) (edge here)
          have placed := joined.placed other lines.size returns
          refine ih _ _ _ placed.size placed.lines fun changed => ?_
          exact absurd (placed.after.symm.trans changed) Bool.false_ne_true

/-- Shifting changes neither the number of flags nor the unchanged lines. -/
theorem unchanged_shift {ls : List Text} {flags : List Bool} (fits : flags.length = ls.length)
    (other : List Bool) : (shift ls flags other).length = ls.length ∧
      unchanged ls (shift ls flags other) = unchanged ls flags := by
  obtain ⟨size, same⟩ := shiftFrom_sound ls.toArray other.toArray (unchanged ls flags)
    ((ls.length + 1) * (ls.length + 1)) flags.toArray 0 0 (by simpa using fits)
    (unchanged_eq ls fits).symm nofun
  have shifted : (shift ls flags other).length = ls.length := by simpa [shift] using size
  exact ⟨shifted, (unchanged_eq ls shifted).trans (by simpa [shift] using same)⟩

end LiteralHoist.Patch
