import LiteralHoist.Proofs.Report.Order
import LiteralHoist.Proofs.Source.Template
import Mathlib.Data.Finset.Card
import Mathlib.Data.List.TakeWhile

/-!
# What a list of diagnostics says

A list is reported to and read any number of times.  Its size is the number of different notices
among all that was reported, and its text names them in the order of their places, in the order in
which they were reported where the place is the same.  A message that occurs too often is named
once.  Reading leaves the list in another order, but neither the size nor a later text shows it.
-/

set_option autoImplicit false

namespace LiteralHoist

theorem Text.ne_empty_iff {t : Text} : t ≠ "" ↔ 0 < t.size := by
  obtain ⟨octets⟩ := t
  have empty : Text.ofString "" = ⟨[]⟩ := rfl
  simp [empty, Text.size, List.length_pos_iff]

namespace Report

/-! ## Calls -/

/-- What is done with a list. -/
inductive Call where
  | report (file : Text) (r : Reported)
  /-- What the list holds is reported to it once more, for `file`. -/
  | reportSelf (file : Text)
  | read
  deriving DecidableEq, Repr

def Diagnostics.after (ds : Diagnostics) : Call → Diagnostics
  | .report file r => ds.reportIn file r
  | .reportSelf file => ds.reportIn file (.all ds)
  | .read => ds.read.2

def Diagnostics.afterAll (calls : List Call) : Diagnostics :=
  calls.foldl after {}

/-- The first diagnostic of each notice. -/
def firsts (given : List Diagnostic) : List Diagnostic :=
  given.eraseDupsBy fun a b => a.toNotice == b.toNotice

def Call.adds (given : List Diagnostic) : Call → List Diagnostic
  | .report file r => r.diagnostics file
  | .reportSelf file => (firsts given).map (Diagnostic.inFile file)
  | .read => []

def givenBy (calls : List Call) : List Diagnostic :=
  calls.foldl (fun given call => given ++ call.adds given) []

/-! ## Different notices -/

theorem firsts_eq (given : List Diagnostic) :
    firsts given = (given.foldl Diagnostics.insert {}).entries := by
  have loop : ∀ given kept : List Diagnostic,
      List.eraseDupsBy.loop (fun a b : Diagnostic => a.toNotice == b.toNotice) given kept =
        (given.foldl Diagnostics.insert ⟨kept.reverse⟩).entries := by
    intro given
    induction given with
    | nil => exact fun _ => rfl
    | cons d given ih =>
        intro kept
        have known : kept.any (fun e => d.toNotice == e.toNotice) = true ↔
            (Diagnostics.mk kept.reverse).Knows d := by
          simp only [List.any_eq_true, beq_iff_eq, Diagnostics.Knows, List.mem_reverse]
          simp only [eq_comm]
        rw [List.eraseDupsBy.loop, List.foldl_cons]
        split
        · rename_i found
          rw [ih, Diagnostics.insert_of_knows (known.mp found)]
        · rename_i absent
          rw [ih, Diagnostics.insert_of_not_knows fun found => by simp [known.mpr found] at absent,
            List.reverse_cons]
  exact loop given []

theorem firsts_append (given new : List Diagnostic) :
    (⟨firsts (given ++ new)⟩ : Diagnostics) = new.foldl Diagnostics.insert ⟨firsts given⟩ := by
  rw [firsts_eq, firsts_eq, List.foldl_append]

theorem mem_notices_foldl_insert {n : Notice} (new : List Diagnostic) : ∀ ds : Diagnostics,
    n ∈ (new.foldl Diagnostics.insert ds).entries.map Diagnostic.toNotice ↔
      n ∈ ds.entries.map Diagnostic.toNotice ∨ n ∈ new.map Diagnostic.toNotice := by
  induction new with
  | nil => simp
  | cons d new ih =>
      intro ds
      have here : n ∈ (ds.insert d).entries.map Diagnostic.toNotice ↔
          n ∈ ds.entries.map Diagnostic.toNotice ∨ d.toNotice = n := by
        simpa [Diagnostics.Knows] using Diagnostics.knows_insert_iff (e := { n with })
      rw [List.foldl_cons, ih, here, List.map_cons, List.mem_cons, or_assoc, eq_comm]

theorem nodup_notices_foldl_insert (new : List Diagnostic) : ∀ ds : Diagnostics,
    (ds.entries.map Diagnostic.toNotice).Nodup →
    ((new.foldl Diagnostics.insert ds).entries.map Diagnostic.toNotice).Nodup := by
  induction new with
  | nil => exact fun _ => id
  | cons d new ih =>
      intro ds once
      refine ih _ ?_
      by_cases known : ds.Knows d
      · rwa [Diagnostics.insert_of_knows known]
      · rw [Diagnostics.insert_of_not_knows known, List.map_append, List.map_singleton,
          ← List.concat_eq_append]
        exact once.concat fun member => known (by simpa [Diagnostics.Knows] using member)

theorem mem_notices_firsts {n : Notice} {given : List Diagnostic} :
    n ∈ (firsts given).map Diagnostic.toNotice ↔ n ∈ given.map Diagnostic.toNotice := by
  rw [firsts_eq, mem_notices_foldl_insert]
  simp

theorem length_firsts (given : List Diagnostic) :
    (firsts given).length = (given.map Diagnostic.toNotice).toFinset.card := by
  have once := nodup_notices_foldl_insert given {} List.nodup_nil
  rw [← firsts_eq] at once
  have same : ((firsts given).map Diagnostic.toNotice).toFinset =
      (given.map Diagnostic.toNotice).toFinset := by
    ext n
    rw [List.mem_toFinset, List.mem_toFinset, mem_notices_firsts]
  rw [← same, List.toFinset_card_of_nodup once, List.length_map]

/-! ## Runs -/

/-- A list holds what was given to it, in an order that differs at most between places. -/
def Diagnostics.Holds (ds : Diagnostics) (given : List Diagnostic) : Prop :=
  ds.SamePlaces ⟨firsts given⟩

theorem Diagnostics.read_snd (ds : Diagnostics) : ds.read.2 = ds.sorted := by
  rw [read]
  split
  · rename_i empty
    obtain ⟨entries⟩ := ds
    obtain rfl : entries = [] := by simpa [isEmpty] using empty
    simp [sorted]
  · rfl

theorem Diagnostics.Holds.after {ds : Diagnostics} {given : List Diagnostic}
    (holds : ds.Holds given) (call : Call) : (ds.after call).Holds (given ++ call.adds given) := by
  rw [Holds, firsts_append]
  cases call with
  | report file r => exact holds.foldl_insert _
  | reportSelf file => exact holds.reportIn_self file
  | read =>
      rw [Diagnostics.after, read_snd]
      exact fun p => (samePlaces_sorted ds p).trans (holds p)

theorem Diagnostics.holds_afterAll (calls : List Call) :
    (afterAll calls).Holds (givenBy calls) := by
  have run : ∀ {ds : Diagnostics} {given : List Diagnostic}, ds.Holds given →
      (calls.foldl Diagnostics.after ds).Holds
        (calls.foldl (fun given call => given ++ call.adds given) given) := by
    induction calls with
    | nil => exact id
    | cons call calls ih => exact fun holds => ih (holds.after call)
  exact run fun _ => rfl

theorem givenBy_filter (calls : List Call) :
    givenBy (calls.filter (· ≠ .read)) = givenBy calls := by
  have run : ∀ given : List Diagnostic,
      (calls.filter (· ≠ .read)).foldl (fun given call => given ++ call.adds given) given =
        calls.foldl (fun given call => given ++ call.adds given) given := by
    induction calls with
    | nil => exact fun _ => rfl
    | cons call calls ih =>
        intro given
        by_cases reads : call = .read
        · rw [List.filter_cons_of_neg (by simpa using reads), ih, List.foldl_cons, reads, Call.adds,
            List.append_nil]
        · rw [List.filter_cons_of_pos (by simpa using reads), List.foldl_cons, List.foldl_cons, ih]
  exact run []

/-! ## Texts -/

/-- What a list says for the diagnostic at an index: a message that occurs at most three times is
named with every diagnostic, another one with the first only, followed by the number of its
occurrences. -/
def lineAt (ordered : List Diagnostic) : Diagnostic × Nat → Option Text
  | (d, i) =>
    let n := (ordered.map (·.msg)).count d.msg
    if n ≤ 3 then some (d.textWith d.msg)
    else if d.msg ∈ (ordered.take i).map (·.msg) then none
    else some (d.textWith (d.msg ++ " [× " ++ toString n ++ "]"))

def listing (ordered : List Diagnostic) : Text :=
  if ordered = [] then "no errors"
  else Text.intercalate "\n" (ordered.zipIdx.filterMap (lineAt ordered))

theorem Diagnostics.occurrences_eq (ds : Diagnostics) (msg : Text) :
    ds.occurrences msg = (ds.entries.map (·.msg)).count msg := by
  rw [occurrences, ← List.countP_eq_length_filter, List.count, List.countP_map]
  rfl

theorem lineAt_of_few {ordered : List Diagnostic} {d : Diagnostic}
    (few : (ordered.map (·.msg)).count d.msg ≤ 3) (i : Nat) :
    lineAt ordered (d, i) = some (d.textWith d.msg) :=
  if_pos few

/-- A message that occurs too often, after the diagnostics `before`. -/
theorem lineAt_of_many {ordered before rest : List Diagnostic} {d : Diagnostic}
    (whole : ordered = before ++ rest) (many : ¬ (ordered.map (·.msg)).count d.msg ≤ 3) :
    lineAt ordered (d, before.length) = if d.msg ∈ before.map (·.msg) then none
      else some (d.textWith
        (d.msg ++ " [× " ++ toString ((ordered.map (·.msg)).count d.msg) ++ "]")) := by
  have earlier : ordered.take before.length = before := by rw [whole, List.take_left]
  rw [lineAt, if_neg many, earlier]

/-- What is said of the rest of a list after some of its diagnostics were gone through.  The
messages that were named are those of the diagnostics before, as far as they occur too often. -/
theorem texts_eq {ordered : List Diagnostic} (rest : List Diagnostic) :
    ∀ (before : List Diagnostic) (named : List Text), ordered = before ++ rest →
      (∀ msg, 3 < (ordered.map (·.msg)).count msg → (msg ∈ named ↔ msg ∈ before.map (·.msg))) →
      (Diagnostics.mk ordered).texts named rest =
        (rest.zipIdx before.length).filterMap (lineAt ordered) := by
  induction rest with
  | nil => intros; rfl
  | cons d rest ih =>
      intro before named whole known
      have next : ∀ {named : List Text}, (∀ msg, 3 < (ordered.map (·.msg)).count msg →
          (msg ∈ named ↔ msg ∈ before.map (·.msg) ∨ msg = d.msg)) →
          (Diagnostics.mk ordered).texts named rest =
            (rest.zipIdx (before.length + 1)).filterMap (lineAt ordered) := by
        intro named known
        have split : ordered = (before ++ [d]) ++ rest := by rw [whole, List.append_cons]
        simpa using ih (before ++ [d]) named split (by simpa using known)
      rw [List.zipIdx_cons]
      simp only [Diagnostics.texts, Diagnostics.occurrences_eq, Diagnostics.mostRepeats]
      by_cases few : (ordered.map (·.msg)).count d.msg ≤ 3
      · rw [if_pos few, List.filterMap_cons_some (lineAt_of_few few _), next]
        intro msg many
        rw [known msg many, or_iff_left]
        rintro rfl
        omega
      · have line := lineAt_of_many whole few
        have named_iff : named.contains d.msg = true ↔ d.msg ∈ before.map (·.msg) :=
          List.contains_iff_mem.trans (known d.msg (by omega))
        rw [if_neg few]
        by_cases again : d.msg ∈ before.map (·.msg)
        · rw [if_pos again] at line
          rw [if_pos (named_iff.mpr again), List.filterMap_cons_none line, next]
          intro msg many
          rw [known msg many, or_iff_left_of_imp]
          rintro rfl
          exact again
        · rw [if_neg again] at line
          rw [if_neg (named_iff.not.mpr again), List.filterMap_cons_some line, next]
          intro msg many
          rw [List.mem_cons, known msg many, or_comm]

theorem textWith_ne_empty (d : Diagnostic) {msg : Text} (written : msg ≠ "") :
    d.textWith msg ≠ "" := by
  rw [Text.ne_empty_iff] at written ⊢
  rw [Diagnostic.textWith, Notice.textWith]
  split <;> simp only [Text.size_append] <;> omega

theorem lineAt_ne_empty {ordered : List Diagnostic} {d : Diagnostic} {i : Nat} {s : Text}
    (written : d.msg ≠ "") (said : lineAt ordered (d, i) = some s) : s ≠ "" := by
  have counted (n : Nat) : d.msg ++ " [× " ++ toString n ++ "]" ≠ ("" : Text) := by
    rw [Text.ne_empty_iff] at written ⊢
    simp only [Text.size_append]
    omega
  rw [lineAt] at said
  split at said
  · obtain rfl := Option.some.inj said
    exact textWith_ne_empty d written
  · split at said
    · cases said
    · obtain rfl := Option.some.inj said
      exact textWith_ne_empty d (counted _)

/-- The text of a list whose messages are not empty. -/
theorem Diagnostics.read_fst {ds : Diagnostics} (messages : ∀ d ∈ ds.entries, d.msg ≠ "") :
    ds.read.1 = listing ds.sorted.entries := by
  have perm : ds.sorted.entries.Perm ds.entries := List.mergeSort_perm _ _
  have texts : ds.sorted.texts [] ds.sorted.entries =
      ds.sorted.entries.zipIdx.filterMap (lineAt ds.sorted.entries) :=
    texts_eq ds.sorted.entries [] [] rfl (by simp)
  have written : ∀ s ∈ ds.sorted.texts [] ds.sorted.entries, s ≠ "" := by
    intro s member
    rw [texts] at member
    obtain ⟨⟨d, i⟩, inside, said⟩ := List.mem_filterMap.mp member
    exact lineAt_ne_empty (messages d (perm.mem_iff.mp (List.fst_mem_of_mem_zipIdx inside))) said
  have whole : (ds.sorted.texts [] ds.sorted.entries).dropWhile (fun s : Text => s = "") =
      ds.sorted.texts [] ds.sorted.entries := by
    rw [List.dropWhile_eq_self_iff]
    intro nonempty
    simpa using written _ (List.getElem_mem nonempty)
  rw [read, listing, isEmpty]
  by_cases empty : ds.entries = []
  · rw [if_pos (by simpa using empty), if_pos (by simpa [empty] using perm)]
  · have kept : ds.sorted.entries ≠ [] := fun nil => empty (by simpa [nil] using perm.symm)
    rw [if_neg (by simpa using empty), if_neg kept]
    exact congrArg (Text.intercalate "\n") (whole.trans texts)

/-- Lists that agree at every place say the same. -/
theorem Diagnostics.SamePlaces.read_fst_eq {ds ds' : Diagnostics} (same : ds.SamePlaces ds') :
    ds.read.1 = ds'.read.1 := by
  have empty : ds.isEmpty = ds'.isEmpty := by
    rw [isEmpty, isEmpty, same.perm.isEmpty_eq]
  rw [read, read, empty, same.sorted_eq]
  split <;> rfl

/-! ## Listings -/

/-- Diagnostics are given in an order: they are the first of each notice, in the order of their
places, and at each place in the order in which they were given. -/
structure Arranged (given ordered : List Diagnostic) : Prop where
  sorted : ordered.Pairwise fun a b => a.place ≤ b.place
  ties : ∀ p, ordered.filter (·.place = p) = (firsts given).filter (·.place = p)

/-- Only the places of diagnostics have to be looked at. -/
theorem arranged_iff {given ordered : List Diagnostic} : Arranged given ordered ↔
    ordered.Pairwise (fun a b => a.place ≤ b.place) ∧
      ∀ d ∈ ordered ++ firsts given,
        ordered.filter (·.place = d.place) = (firsts given).filter (·.place = d.place) := by
  constructor
  · exact fun arranged => ⟨arranged.sorted, fun d _ => arranged.ties d.place⟩
  · rintro ⟨sorted, ties⟩
    refine ⟨sorted, fun p => ?_⟩
    by_cases found : ∃ d ∈ ordered ++ firsts given, d.place = p
    · obtain ⟨d, member, rfl⟩ := found
      exact ties d member
    · have none : ∀ list, list ⊆ ordered ++ firsts given → list.filter (·.place = p) = [] := by
        intro list inside
        rw [List.filter_eq_nil_iff]
        intro d member
        simpa using fun here => found ⟨d, inside member, here⟩
      rw [none ordered (by simp), none (firsts given) (by simp)]

instance (given ordered : List Diagnostic) : Decidable (Arranged given ordered) :=
  decidable_of_iff' _ arranged_iff

theorem Diagnostics.Holds.arranged_iff {ds : Diagnostics} {given : List Diagnostic}
    (holds : ds.Holds given) (ordered : List Diagnostic) :
    Arranged given ordered ↔ ordered = ds.sorted.entries := by
  have ties : ∀ p, ds.sorted.entries.filter (·.place = p) = (firsts given).filter (·.place = p) :=
    fun p => congrArg entries ((samePlaces_sorted ds p).trans (holds p))
  constructor
  · intro arranged
    exact eq_of_same_at_places arranged.sorted (pairwise_sorted ds) fun p =>
      (arranged.ties p).trans (ties p).symm
  · rintro rfl
    exact ⟨pairwise_sorted ds, ties⟩

/-- Whatever is reported to a list, and however often it is read meanwhile: its size is the number
of different notices that were given to it, and its text names them in their one order, unless a
message is empty.  Readings change neither the size nor a later text. -/
theorem reports_are_listed_in_order (calls : List Call) :
    (Diagnostics.afterAll calls).size =
      ((givenBy calls).map Diagnostic.toNotice).toFinset.card ∧
    (∃ ordered, (∀ other, Arranged (givenBy calls) other ↔ other = ordered) ∧
      ((∀ d ∈ givenBy calls, d.msg ≠ "") →
        (Diagnostics.afterAll calls).read.1 = listing ordered)) ∧
    ∀ others : List Call, others.filter (· ≠ .read) = calls.filter (· ≠ .read) →
      (Diagnostics.afterAll others).size = (Diagnostics.afterAll calls).size ∧
      (Diagnostics.afterAll others).read.1 = (Diagnostics.afterAll calls).read.1 := by
  have holds := Diagnostics.holds_afterAll calls
  refine ⟨?_, ⟨_, holds.arranged_iff, fun messages => Diagnostics.read_fst fun d member => ?_⟩, ?_⟩
  · rw [← length_firsts]
    exact holds.perm.length_eq
  · have notice : d.toNotice ∈ (firsts (givenBy calls)).map Diagnostic.toNotice :=
      List.mem_map_of_mem (holds.perm.mem_iff.mp member)
    obtain ⟨e, given, same⟩ := List.mem_map.mp (mem_notices_firsts.mp notice)
    rw [← same]
    exact messages e given
  · intro others same
    have holds' := Diagnostics.holds_afterAll others
    rw [← givenBy_filter, same, givenBy_filter] at holds'
    have agree : (Diagnostics.afterAll others).SamePlaces (Diagnostics.afterAll calls) :=
      fun p => (holds' p).trans (holds p).symm
    exact ⟨agree.perm.length_eq, agree.read_fst_eq⟩

/-! ## A list that is read while it grows -/

/-- Calls that report a class twice, a message four times and a message without a file, which gets
one when the list is reported to itself. -/
def busyCalls : List Call := [
  .report "B.java" (.unresolved ⟨⟨3, 1⟩, "B"⟩),
  .report "" (.message "late"),
  .report "A.java" (.diagnostic
    { pos := ⟨7, 0⟩, msg := "stray", secondary := [{ pos := ⟨9, 2⟩, msg := "here" }] }),
  .read,
  .report "A.java" (.all ⟨[
    { pos := ⟨7, 0⟩, msg := "same" },
    { file := "C.java", pos := ⟨1, 0⟩, msg := "same" },
    { file := "C.java", pos := ⟨2, 0⟩, msg := "same" },
    { pos := ⟨2, 0⟩, msg := "same" }]⟩),
  .report "B.java" (.unresolved ⟨⟨3, 1⟩, "B"⟩),
  .read,
  .reportSelf "A.java",
  .report "B.java" .nothing]

def busyText : Text :=
  "late\nA.java: late\nA.java:2: same [× 4]\nA.java:7: stray\n\t9:2: here\n" ++
    "B.java:3:1: class B: type not resolved"

theorem busyCalls_listed :
    (∀ d ∈ givenBy busyCalls, d.msg ≠ "") ∧ (Diagnostics.afterAll busyCalls).size = 8 ∧
      (Diagnostics.afterAll busyCalls).read.1 = busyText ∧
      (Diagnostics.afterAll (busyCalls.filter (· ≠ .read))).read.1 = busyText := by
  have messages : ∀ d ∈ givenBy busyCalls, d.msg ≠ "" := by decide +kernel
  obtain ⟨size, ⟨ordered, unique, text⟩, quiet⟩ := reports_are_listed_in_order busyCalls
  have arranged : Arranged (givenBy busyCalls) [
      { msg := "late" },
      { file := "A.java", msg := "late" },
      { file := "A.java", pos := ⟨2, 0⟩, msg := "same" },
      { file := "A.java", pos := ⟨7, 0⟩, msg := "stray",
        secondary := [{ pos := ⟨9, 2⟩, msg := "here" }] },
      { file := "A.java", pos := ⟨7, 0⟩, msg := "same" },
      { file := "B.java", pos := ⟨3, 1⟩, msg := "class B: type not resolved" },
      { file := "C.java", pos := ⟨1, 0⟩, msg := "same" },
      { file := "C.java", pos := ⟨2, 0⟩, msg := "same" }] := by
    decide +kernel
  have said : (Diagnostics.afterAll busyCalls).read.1 = busyText := by
    rw [text messages, ← (unique _).mp arranged]
    decide +kernel
  have count : ((givenBy busyCalls).map Diagnostic.toNotice).toFinset.card = 8 := by
    decide +kernel
  exact ⟨messages, size.trans count, said, (quiet _ (by simp)).2.trans said⟩

end Report

end LiteralHoist
