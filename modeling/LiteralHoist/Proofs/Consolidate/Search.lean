import LiteralHoist.Proofs.Consolidate.Decision
import Mathlib.Data.PFun
import Mathlib.Data.Set.Finite.List

/-!
# Searches end

A search for a free name may be seen as a loop that has no bound on its steps.  It ends if only
finitely many names are taken, since the names it asks about are all different.  It asks about the
suffixes in their order, up to the first free one or up to the limit, and a search with a bound on
its steps does the same if the bound is the number of the names that may be taken.
-/

set_option autoImplicit false

namespace LiteralHoist.Consolidate

/-- One round of the loop of a search, which has come to a suffix and has asked about some names:
the loop ends with a result, or goes on with the next suffix. -/
def seekStep (base : Text) (taken : Text → Bool) (limit : Int) :
    Nat × List Text → Search ⊕ (Nat × List Text)
  | (i, asked) =>
    let name := suffixed base i
    if !taken name then .inl ⟨some name, asked ++ [name]⟩
    else if 0 < limit ∧ limit < i + 1 then .inl ⟨none, asked ++ [name]⟩
    else .inr (i + 1, asked ++ [name])

def seekFrom (base : Text) (taken : Text → Bool) (limit : Int) : Nat × List Text →. Search :=
  PFun.fix (PFun.lift (seekStep base taken limit))

def seek (seed : Text) (taken : Text → Bool) (limit : Int) : Part Search :=
  if constantName seed = "" then Part.some ⟨none, []⟩
  else seekFrom (constantName seed) taken limit (0, [])

section Stop
variable {base : Text} {taken : Text → Bool} {limit : Int} {i j steps : Nat}

/-- A search that has come to suffix `i` stops at suffix `j`: it passes the names before, which are
taken, and the name of `j` is free or the last that the limit allows. -/
structure StopsAt (base : Text) (taken : Text → Bool) (limit : Int) (i j : Nat) : Prop where
  reached : i ≤ j
  used : ∀ k, i ≤ k → k < j → taken (suffixed base k) = true
  within : 0 < limit → (j : Int) ≤ limit
  last : taken (suffixed base j) = true → 0 < limit ∧ (j : Int) = limit

/-- What a search answers that goes from suffix `i` to suffix `j`. -/
def answer (base : Text) (taken : Text → Bool) (i j : Nat) : Search where
  found := if taken (suffixed base j) then none else some (suffixed base j)
  asked := (List.range' i (j + 1 - i)).map (suffixed base)

theorem answer_self : answer base taken i i =
    ⟨if taken (suffixed base i) then none else some (suffixed base i), [suffixed base i]⟩ := by
  simp [answer]

theorem answer_of_lt (later : i < j) : answer base taken i j =
    ⟨(answer base taken (i + 1) j).found,
      suffixed base i :: (answer base taken (i + 1) j).asked⟩ := by
  have count : j + 1 - i = (j + 1 - (i + 1)) + 1 := by omega
  rw [answer, count, List.range'_succ]
  rfl

/-- One step: a search stops where it is, or goes on from the next suffix. -/
theorem StopsAt.cases (stops : StopsAt base taken limit i j) :
    i = j ∧ (taken (suffixed base i) = true → 0 < limit ∧ limit < i + 1) ∨
      i < j ∧ taken (suffixed base i) = true ∧ ¬ (0 < limit ∧ limit < i + 1) ∧
        StopsAt base taken limit (i + 1) j := by
  obtain ⟨reached, used, within, last⟩ := stops
  rcases Nat.eq_or_lt_of_le reached with here | later
  · subst here
    exact .inl ⟨rfl, fun busy => by have := last busy; omega⟩
  · exact .inr ⟨later, used i le_rfl later, by omega,
      ⟨later, fun k lower upper => used k (by omega) upper, within, last⟩⟩

theorem seekFrom_of_end {state : Nat × List Text} {r : Search}
    (ends : seekStep base taken limit state = .inl r) :
    seekFrom base taken limit state = Part.some r :=
  Part.eq_some_iff.mpr (PFun.fix_stop (Part.mem_some_iff.mpr ends.symm))

theorem seekFrom_of_next {state next : Nat × List Text}
    (goes : seekStep base taken limit state = .inr next) :
    seekFrom base taken limit state = seekFrom base taken limit next :=
  PFun.fix_fwd_eq (Part.mem_some_iff.mpr goes.symm)

theorem StopsAt.seekFrom_eq (stops : StopsAt base taken limit i j) (asked : List Text) :
    seekFrom base taken limit (i, asked) =
      Part.some ⟨(answer base taken i j).found, asked ++ (answer base taken i j).asked⟩ := by
  induction distance : j - i generalizing i asked with
  | zero =>
      obtain ⟨rfl, spent⟩ | ⟨later, _⟩ := stops.cases
      · apply seekFrom_of_end
        rw [seekStep, answer_self]
        cases busy : taken (suffixed base i) with
        | false => rfl
        | true => simp [spent busy]
      · omega
  | succ n ih =>
      obtain ⟨rfl, _⟩ | ⟨later, busy, allowed, rest⟩ := stops.cases
      · omega
      · have goes : seekStep base taken limit (i, asked) =
            .inr (i + 1, asked ++ [suffixed base i]) := by
          rw [seekStep, if_neg (by simp [busy]), if_neg allowed]
        rw [seekFrom_of_next goes, ih rest _ (by omega), answer_of_lt later, List.append_assoc]
        rfl

theorem StopsAt.seekFrom_start (stops : StopsAt base taken limit 0 j) :
    seekFrom base taken limit (0, []) = Part.some (answer base taken 0 j) :=
  stops.seekFrom_eq []

theorem StopsAt.searchFrom_eq (stops : StopsAt base taken limit i j) (enough : j - i < steps) :
    searchFrom base taken limit steps i = answer base taken i j := by
  induction steps generalizing i with
  | zero => omega
  | succ steps ih =>
      rw [searchFrom]
      obtain ⟨rfl, spent⟩ | ⟨later, busy, allowed, rest⟩ := stops.cases
      · rw [answer_self]
        cases busy : taken (suffixed base i) with
        | false => rfl
        | true => simp [spent busy]
      · rw [answer_of_lt later, ← ih rest (by omega), if_neg (by simp [busy]), if_neg allowed]

/-- Only finitely many names are taken, so a search stops, and it does so before it has asked about
more names than are taken. -/
theorem exists_stopsAt {names : List Text} (covered : ∀ name, taken name = true → name ∈ names)
    (base : Text) (limit : Int) : ∃ j ≤ names.length, StopsAt base taken limit 0 j := by
  obtain ⟨free, small, isFree⟩ := exists_free covered base
  have ends : ∃ j : Nat, taken (suffixed base j) = false ∨ 0 < limit ∧ (j : Int) = limit :=
    ⟨free, .inl isFree⟩
  refine ⟨Nat.find ends, (Nat.find_min' ends (.inl isFree)).trans small, Nat.zero_le _, ?_, ?_, ?_⟩
  · intro k _ before
    simpa using (not_or.mp (Nat.find_min ends before)).1
  · intro limited
    by_contra beyond
    have earlier : limit.toNat < Nat.find ends := by omega
    exact (not_or.mp (Nat.find_min ends earlier)).2 ⟨limited, by omega⟩
  · intro busy
    exact (Nat.find_spec ends).resolve_left (by simp [busy])

def Exhausted (base : Text) (taken : Text → Bool) (limit : Int) : Prop :=
  0 < limit ∧ ∀ k : Nat, (k : Int) ≤ limit → taken (suffixed base k) = true

theorem nodup_asked (base : Text) (taken : Text → Bool) (i j : Nat) :
    (answer base taken i j).asked.Nodup :=
  (List.nodup_range' ..).map (suffixed_injective base)

theorem StopsAt.found_of_exhausted (stops : StopsAt base taken limit 0 j)
    (exhausted : Exhausted base taken limit) :
    (answer base taken 0 j).found = none ∧ (j : Int) = limit := by
  have busy := exhausted.2 j (stops.within exhausted.1)
  exact ⟨if_pos busy, (stops.last busy).2⟩

theorem StopsAt.found_of_not_exhausted (stops : StopsAt base taken limit 0 j)
    (more : ¬ Exhausted base taken limit) :
    (answer base taken 0 j).found = some (suffixed base j) ∧ taken (suffixed base j) = false := by
  have free : taken (suffixed base j) = false := by
    by_contra busy
    obtain ⟨limited, atLimit⟩ := stops.last (by simpa using busy)
    refine more ⟨limited, fun k within => ?_⟩
    rcases Nat.lt_or_ge k j with before | after
    · exact stops.used k (Nat.zero_le k) before
    · obtain rfl : k = j := by omega
      simpa using busy
  exact ⟨if_neg (by simp [free]), free⟩

end Stop

theorem Scope.finite_taken (scope : Scope) : {name | scope.taken name = true}.Finite :=
  (List.finite_toSet (scope.committed ++ scope.bound)).subset fun _ used =>
    List.mem_append.mpr (Scope.mem_of_taken used)

theorem Scope.finite_takenByOthers (scope : Scope) (own : Text) :
    {name | scope.takenByOthers own name = true}.Finite :=
  (List.finite_toSet (scope.committed ++ scope.bound)).subset fun _ used =>
    List.mem_append.mpr (Scope.mem_of_takenByOthers used)

/-- A scope takes finitely many names.  Whenever finitely many are taken, a search without a bound
ends, and a search with enough steps for the taken names does the same.  For a text that no name can
be made from it asks nothing.  Else it asks about the suffixes in their order, each once, and stops
at the first free name, which it finds; if there is a limit, it stops at the limit at the latest,
and finds nothing exactly if all names up to there are taken. -/
theorem searches_end_at_first_free :
    (∀ (scope : Scope) (own : Text), {name | scope.taken name = true}.Finite ∧
      {name | scope.takenByOthers own name = true}.Finite) ∧
    ∀ (seed : Text) (taken : Text → Bool) (limit : Int), {name | taken name = true}.Finite →
      ∃ r, seek seed taken limit = Part.some r ∧
        (∀ names : List Text, (∀ name, taken name = true → name ∈ names) →
          freeName seed taken names.length limit = r) ∧
        (constantName seed = "" → r = ⟨none, []⟩) ∧
        (constantName seed ≠ "" → ∃ j : Nat,
          r.asked = (List.range (j + 1)).map (suffixed (constantName seed)) ∧ r.asked.Nodup ∧
          (∀ k < j, taken (suffixed (constantName seed) k) = true) ∧
          (0 < limit → (j : Int) ≤ limit) ∧
          (Exhausted (constantName seed) taken limit → r.found = none ∧ (j : Int) = limit) ∧
          (¬ Exhausted (constantName seed) taken limit →
            r.found = some (suffixed (constantName seed) j) ∧
              taken (suffixed (constantName seed) j) = false)) := by
  refine ⟨fun scope own => ⟨scope.finite_taken, scope.finite_takenByOthers own⟩, ?_⟩
  intro seed taken limit finite
  by_cases unnamed : constantName seed = ""
  · refine ⟨⟨none, []⟩, by rw [seek, if_pos unnamed], fun names _ => ?_, fun _ => rfl, ?_⟩
    · rw [freeName, if_pos unnamed]
    · exact fun named => absurd unnamed named
  · have listed : ∀ name, taken name = true → name ∈ finite.toFinset.toList := by simp
    obtain ⟨j, _, stops⟩ := exists_stopsAt listed (constantName seed) limit
    refine ⟨answer (constantName seed) taken 0 j, ?_, ?_, fun empty => absurd empty unnamed, ?_⟩
    · rw [seek, if_neg unnamed, stops.seekFrom_start]
    · intro names covered
      obtain ⟨k, small, stops'⟩ := exists_stopsAt covered (constantName seed) limit
      have same := stops.seekFrom_start.symm.trans stops'.seekFrom_start
      rw [freeName, if_neg unnamed, stops'.searchFrom_eq (by omega)]
      exact (Part.some_injective same).symm
    · intro _
      refine ⟨j, ?_, nodup_asked _ _ _ _, fun k => stops.used k (Nat.zero_le k), stops.within,
        stops.found_of_exhausted, stops.found_of_not_exhausted⟩
      rw [answer, List.range_eq_range']
      rfl

/-- With `HI`, `HI_1` and `HI_2` taken, a search with limit two asks for them and finds nothing; one
without a limit finds the next name. -/
theorem taken_names_searched :
    let taken := ([("HI" : Text), "HI_1", "HI_2"] : List Text).contains
    {name | taken name = true}.Finite ∧
      seek "hi" taken 2 = Part.some ⟨none, ["HI", "HI_1", "HI_2"]⟩ ∧
      seek "hi" taken 0 = Part.some ⟨some "HI_3", ["HI", "HI_1", "HI_2", "HI_3"]⟩ := by
  intro taken
  have listed : ∀ name, taken name = true → name ∈ ([("HI" : Text), "HI_1", "HI_2"] : List Text) :=
    fun name => List.contains_iff_mem.mp
  have finite : {name | taken name = true}.Finite := (List.finite_toSet _).subset listed
  obtain ⟨_, ends⟩ := searches_end_at_first_free
  obtain ⟨limited, seeks, bounded, _⟩ := ends "hi" taken 2 finite
  obtain ⟨unlimited, seeks', bounded', _⟩ := ends "hi" taken 0 finite
  refine ⟨finite, ?_, ?_⟩
  · rw [seeks, ← bounded _ listed, Part.some_inj]
    decide +kernel
  · rw [seeks', ← bounded' _ listed, Part.some_inj]
    decide +kernel

end LiteralHoist.Consolidate
