import LiteralHoist.Report.Diagnostic
import Mathlib.Data.List.Lex
import Mathlib.Data.List.Perm.Basic
import Mathlib.Data.Prod.Lex

/-!
# The order of diagnostics

Diagnostics are ordered by their places: by file, then line, then column.  Reading a list puts it in
this order and keeps the order in which diagnostics of one place were reported.  So two lists that
agree at every place are put in the same order, and they go on agreeing whatever is reported to
both, each list itself included.
-/

set_option autoImplicit false

namespace LiteralHoist.Report

/-- A file, octet by octet, a line and a column, in the order in which they are compared. -/
abbrev Place := List Nat ×ₗ Int ×ₗ Int

def Notice.place (n : Notice) : Place :=
  toLex (n.file.octets.map UInt8.toNat, toLex (n.pos.line, n.pos.col))

theorem map_toNat_lt_iff (a : List UInt8) : ∀ b : List UInt8,
    a.map UInt8.toNat < b.map UInt8.toNat ↔ a < b := by
  induction a with
  | nil =>
      intro b
      cases b <;> simp
  | cons x a ih =>
      intro b
      cases b with
      | nil => simp
      | cons y b =>
          rw [List.map_cons, List.map_cons, List.cons_lt_cons_iff, List.cons_lt_cons_iff, ih,
            UInt8.lt_iff_toNat_lt, UInt8.toNat_inj]

theorem map_toNat_inj {a b : List UInt8} : a.map UInt8.toNat = b.map UInt8.toNat ↔ a = b :=
  (List.map_injective_iff.mpr fun _ _ => UInt8.toNat_inj.mp).eq_iff

theorem Notice.notAfter_iff {a b : Notice} : a.notAfter b = true ↔ a.place ≤ b.place := by
  obtain ⟨⟨file⟩, ⟨line, col⟩, _⟩ := a
  obtain ⟨⟨file'⟩, ⟨line', col'⟩, _⟩ := b
  rw [Notice.notAfter, place, place, Prod.Lex.toLex_le_toLex, Prod.Lex.toLex_le_toLex]
  simp only [map_toNat_lt_iff, map_toNat_inj]
  have lower : Text.mk file < Text.mk file' ↔ file < file' := Iff.rfl
  by_cases sameFile : file = file'
  · by_cases sameLine : line = line' <;> simp [sameFile, sameLine]
  · simp [sameFile, lower]

theorem notAfter_trans (a b c : Diagnostic) (first : a.toNotice.notAfter b.toNotice = true)
    (second : b.toNotice.notAfter c.toNotice = true) :
    a.toNotice.notAfter c.toNotice = true := by
  rw [Notice.notAfter_iff] at first second ⊢
  exact first.trans second

theorem notAfter_total (a b : Diagnostic) :
    (a.toNotice.notAfter b.toNotice || b.toNotice.notAfter a.toNotice) = true := by
  rw [Bool.or_eq_true, Notice.notAfter_iff, Notice.notAfter_iff]
  exact le_total _ _

theorem mem_of_same_at_place {xs ys : List Diagnostic} {d : Diagnostic}
    (same : xs.filter (·.place = d.place) = ys.filter (·.place = d.place)) (member : d ∈ xs) :
    d ∈ ys := by
  have kept : d ∈ xs.filter (·.place = d.place) := List.mem_filter.mpr ⟨member, by simp⟩
  rw [same] at kept
  exact List.mem_of_mem_filter kept

/-- The first of a list in the order of the places comes before all others. -/
theorem head_place_le {x d : Diagnostic} {xs : List Diagnostic}
    (sorted : (x :: xs).Pairwise fun a b => a.place ≤ b.place) (member : d ∈ x :: xs) :
    x.place ≤ d.place := by
  rcases List.mem_cons.mp member with here | later
  · rw [here]
  · exact List.rel_of_pairwise_cons sorted later

/-- Two lists in the order of the places are the same if they are the same at every place. -/
theorem eq_of_same_at_places {xs : List Diagnostic} : ∀ {ys : List Diagnostic},
    xs.Pairwise (fun a b => a.place ≤ b.place) → ys.Pairwise (fun a b => a.place ≤ b.place) →
    (∀ p, xs.filter (·.place = p) = ys.filter (·.place = p)) → xs = ys := by
  induction xs with
  | nil =>
      intro ys _ _ same
      cases ys with
      | nil => rfl
      | cons y ys =>
          exact absurd (mem_of_same_at_place (same y.place).symm List.mem_cons_self) (by simp)
  | cons x xs ih =>
      intro ys sorted sorted' same
      cases ys with
      | nil => exact absurd (mem_of_same_at_place (same x.place) List.mem_cons_self) (by simp)
      | cons y ys =>
          have place : x.place = y.place := by
            apply le_antisymm
            · exact head_place_le sorted (mem_of_same_at_place (same _).symm List.mem_cons_self)
            · exact head_place_le sorted' (mem_of_same_at_place (same _) List.mem_cons_self)
          have heads := same y.place
          simp only [List.filter_cons, place, decide_true, if_true, List.cons.injEq] at heads
          obtain ⟨rfl, _⟩ := heads
          congr 1
          refine ih sorted.of_cons sorted'.of_cons fun p => ?_
          have tails := same p
          rw [List.filter_cons, List.filter_cons] at tails
          split at tails
          · exact (List.cons.inj tails).2
          · exact tails

namespace Diagnostics

def atPlace (ds : Diagnostics) (p : Place) : Diagnostics :=
  ⟨ds.entries.filter (·.place = p)⟩

/-- A list has a diagnostic with the place and message of another. -/
def Knows (ds : Diagnostics) (d : Diagnostic) : Prop :=
  ∃ e ∈ ds.entries, e.toNotice = d.toNotice

theorem insert_of_knows {ds : Diagnostics} {d : Diagnostic} (known : ds.Knows d) :
    ds.insert d = ds := by
  rw [insert, if_pos]
  simpa [Knows] using known

theorem insert_of_not_knows {ds : Diagnostics} {d : Diagnostic} (new : ¬ ds.Knows d) :
    ds.insert d = ⟨ds.entries ++ [d]⟩ := by
  rw [insert, if_neg]
  simpa [Knows] using new

theorem knows_insert_iff {ds : Diagnostics} {d e : Diagnostic} :
    (ds.insert d).Knows e ↔ ds.Knows e ∨ d.toNotice = e.toNotice := by
  by_cases known : ds.Knows d
  · rw [insert_of_knows known]
    constructor
    · exact .inl
    · rintro (inside | same)
      · exact inside
      · obtain ⟨k, member, notice⟩ := known
        exact ⟨k, member, notice.trans same⟩
  · rw [insert_of_not_knows known]
    simp [Knows, or_and_right, exists_or]

theorem knows_atPlace_iff {ds : Diagnostics} {d : Diagnostic} :
    (ds.atPlace d.place).Knows d ↔ ds.Knows d := by
  simp only [Knows, atPlace, List.mem_filter, decide_eq_true_eq]
  constructor
  · rintro ⟨e, ⟨member, _⟩, same⟩
    exact ⟨e, member, same⟩
  · rintro ⟨e, member, same⟩
    exact ⟨e, ⟨member, by rw [same]⟩, same⟩

/-- What is inserted goes to its own place. -/
theorem atPlace_insert (ds : Diagnostics) (d : Diagnostic) (p : Place) :
    (ds.insert d).atPlace p = if d.place = p then (ds.atPlace p).insert d else ds.atPlace p := by
  by_cases known : ds.Knows d
  · rw [insert_of_knows known]
    split
    · rename_i here
      subst here
      rw [insert_of_knows (knows_atPlace_iff.mpr known)]
    · rfl
  · rw [insert_of_not_knows known]
    split
    · rename_i here
      subst here
      rw [insert_of_not_knows (knows_atPlace_iff.not.mpr known)]
      simp [atPlace]
    · rename_i elsewhere
      simp [atPlace, elsewhere]

theorem atPlace_foldl_insert (new : List Diagnostic) (p : Place) :
    ∀ ds : Diagnostics, (new.foldl insert ds).atPlace p =
      (new.filter (·.place = p)).foldl insert (ds.atPlace p) := by
  induction new with
  | nil => exact fun _ => rfl
  | cons d new ih =>
      intro ds
      rw [List.foldl_cons, ih, atPlace_insert, List.filter_cons]
      by_cases here : d.place = p <;> simp [here]

/-- What is known already makes no difference. -/
theorem foldl_insert_filter {change : Diagnostic → Diagnostic} {keep : Diagnostic → Bool}
    {new : List Diagnostic} : ∀ {ds : Diagnostics},
    (∀ d ∈ new, keep d = false → ds.Knows (change d)) →
    ((new.filter keep).map change).foldl insert ds = (new.map change).foldl insert ds := by
  induction new with
  | nil => exact fun _ => rfl
  | cons d new ih =>
      intro ds known
      have later : ∀ e ∈ new, keep e = false → (ds.insert (change d)).Knows (change e) :=
        fun e member dropped =>
          knows_insert_iff.mpr (.inl (known e (List.mem_cons_of_mem _ member) dropped))
      cases kept : keep d with
      | true =>
          rw [List.filter_cons_of_pos kept, List.map_cons, List.map_cons, List.foldl_cons,
            List.foldl_cons, ih later]
      | false =>
          have here := known d List.mem_cons_self kept
          rw [insert_of_knows here] at later
          rw [List.filter_cons_of_neg (by simp [kept]), List.map_cons, List.foldl_cons,
            insert_of_knows here, ih later]

/-- Two lists have the same diagnostics in the same order at every place. -/
def SamePlaces (ds ds' : Diagnostics) : Prop :=
  ∀ p, ds.atPlace p = ds'.atPlace p

theorem pairwise_sorted (ds : Diagnostics) :
    ds.sorted.entries.Pairwise fun a b => a.place ≤ b.place := by
  have pairs := List.pairwise_mergeSort notAfter_trans notAfter_total ds.entries
  exact pairs.imp Notice.notAfter_iff.mp

/-- Sorting is stable. -/
theorem samePlaces_sorted (ds : Diagnostics) : ds.sorted.SamePlaces ds := by
  intro p
  have tied : (ds.entries.filter (·.place = p)).Pairwise
      fun a b => a.toNotice.notAfter b.toNotice = true := by
    rw [List.pairwise_iff_forall_sublist]
    intro a b pair
    have first := (List.mem_filter.mp (pair.subset (a := a) (by simp))).2
    have second := (List.mem_filter.mp (pair.subset (a := b) (by simp))).2
    simp only [decide_eq_true_eq] at first second
    rw [Notice.notAfter_iff, first, second]
  have kept := List.sublist_mergeSort notAfter_trans notAfter_total tied List.filter_sublist
  have inside := kept.filter (·.place = p)
  rw [List.filter_filter] at inside
  simp only [Bool.and_self] at inside
  have perm := (List.mergeSort_perm ds.entries
    fun a b => a.toNotice.notAfter b.toNotice).filter (·.place = p)
  exact congrArg mk (inside.eq_of_length perm.length_eq.symm).symm

theorem SamePlaces.sorted_eq {ds ds' : Diagnostics} (same : ds.SamePlaces ds') :
    ds.sorted = ds'.sorted := by
  refine congrArg mk (eq_of_same_at_places (pairwise_sorted ds) (pairwise_sorted ds') fun p => ?_)
  exact congrArg entries
    (((samePlaces_sorted ds p).trans (same p)).trans (samePlaces_sorted ds' p).symm)

theorem SamePlaces.foldl_insert {ds ds' : Diagnostics} (same : ds.SamePlaces ds')
    (new : List Diagnostic) : (new.foldl insert ds).SamePlaces (new.foldl insert ds') := by
  intro p
  rw [atPlace_foldl_insert, atPlace_foldl_insert, same p]

theorem SamePlaces.perm {ds ds' : Diagnostics} (same : ds.SamePlaces ds') :
    ds.entries.Perm ds'.entries := by
  have sorted := congrArg entries same.sorted_eq
  have left : ds.sorted.entries.Perm ds.entries := List.mergeSort_perm _ _
  have right : ds'.sorted.entries.Perm ds'.entries := List.mergeSort_perm _ _
  rw [sorted] at left
  exact left.symm.trans right

def unfiled (p : Place) : Place :=
  toLex ([], (ofLex p).2)

theorem place_eq_unfiled {d : Diagnostic} (open_ : d.file = "") (file : Text) :
    d.place = unfiled (d.inFile file).place := by
  rw [Diagnostic.inFile, if_pos open_, Notice.place, open_]
  rfl

/-- Of a list that is reported to itself, only those diagnostics matter at a place that have its
line and column and no file: the others at the place are known. -/
theorem atPlace_reportIn_self (ds : Diagnostics) (file : Text) (p : Place) :
    (ds.reportIn file (.all ds)).atPlace p =
      (((ds.atPlace (unfiled p)).entries.filter fun d : Diagnostic =>
        decide (d.file = "") && decide ((d.inFile file).place = p)).map
          (Diagnostic.inFile file)).foldl insert (ds.atPlace p) := by
  have known : ∀ d ∈ ds.entries.filter (fun d => (d.inFile file).place = p),
      decide (d.file = "") = false → (ds.atPlace p).Knows (d.inFile file) := by
    intro d member filed
    obtain ⟨inside, here⟩ := List.mem_filter.mp member
    have kept : d.inFile file = d := by
      rw [Diagnostic.inFile, if_neg (by simpa using filed)]
    rw [kept] at here ⊢
    simp only [decide_eq_true_eq] at here
    subst here
    exact knows_atPlace_iff.mpr ⟨d, inside, rfl⟩
  have chosen : ∀ d : Diagnostic, (decide (d.file = "") && decide ((d.inFile file).place = p)) =
      ((decide (d.file = "") && decide ((d.inFile file).place = p)) &&
        decide (d.place = unfiled p)) := by
    intro d
    rw [Bool.eq_iff_iff]
    simp only [Bool.and_eq_true, decide_eq_true_eq]
    constructor
    · rintro ⟨open_, here⟩
      exact ⟨⟨open_, here⟩, by rw [place_eq_unfiled open_ file, here]⟩
    · exact And.left
  have dropped := foldl_insert_filter known
  simp only [List.filter_filter] at dropped
  rw [reportIn, Reported.diagnostics, atPlace_foldl_insert, List.filter_map]
  refine dropped.symm.trans ?_
  conv_lhs => rw [funext chosen, ← List.filter_filter]
  rfl

theorem SamePlaces.reportIn_self {ds ds' : Diagnostics} (same : ds.SamePlaces ds') (file : Text) :
    (ds.reportIn file (.all ds)).SamePlaces (ds'.reportIn file (.all ds')) := by
  intro p
  rw [atPlace_reportIn_self, atPlace_reportIn_self, same p, same (unfiled p)]

end Diagnostics

end LiteralHoist.Report
