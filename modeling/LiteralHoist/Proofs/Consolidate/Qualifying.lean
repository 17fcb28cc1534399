import LiteralHoist.Proofs.Consolidate.FirstFree
import LiteralHoist.Proofs.Source.Words

/-!
# Which literals count

A literal counts by its value, by the class that it belongs to, and by the nearest node above it
that says how it is used.  `Qualifies` states this on the tree, without a walk and without paths.
The values that are repeated in a class are those with enough qualifying literals, and each comes
with all of them.
-/

set_option autoImplicit false

namespace LiteralHoist.Source

namespace Tree

def scopeKinds : List Kind :=
  [.classDecl, .annot, .varDecl, .new, .call]

def IsScope (t : Tree) (id : NodeId) : Prop :=
  ∃ n, t.Holds id n ∧ n.kind ∈ scopeKinds

/-- A number is below another, and no scope is between them: of the scopes above the number, the
other one is the nearest if it is a scope. -/
inductive Governs (t : Tree) (scope : NodeId) : NodeId → Prop where
  | direct {id : NodeId} : t.Child scope id → Governs t scope id
  | deeper {parent id : NodeId} : Governs t scope parent → ¬ t.IsScope parent →
      t.Child parent id → Governs t scope id

theorem Governs.isBelow {t : Tree} {scope id : NodeId} (governs : t.Governs scope id) :
    t.Below scope id := by
  induction governs with
  | direct child => exact .step .refl child
  | deeper _ _ child ih => exact .step ih child

end Tree

end LiteralHoist.Source

namespace LiteralHoist.Consolidate

open LiteralHoist.Source LiteralHoist.Document

/-- Literals count whose nearest scope is of a form: calls, constructor calls and final variables
that are not both private and static always, annotations if the settings say so. -/
def CountsBelow (settings : Settings) : Form → Prop
  | .call _ _ _ _ | .new _ _ => True
  | .annot _ _ => settings.countAnnotations = true
  | .varDecl d =>
    d.mods.contains .final = true ∧
      ¬ (d.mods.contains .priv = true ∧ d.mods.contains .static = true)
  | _ => False

structure Qualifies (t : Tree) (settings : Settings) (c : NodeId) (value : Text) (id : NodeId) :
    Prop where
  literal : ∃ pos lit, t.Holds id ⟨pos, .literal lit⟩ ∧ lit.kind = .string ∧
    isStringType lit.type = true ∧ lit.value = value
  owned : t.OwnedBy c id
  used : ∃ s n, t.Holds s n ∧ n.kind ∈ Tree.scopeKinds ∧ t.Governs s id ∧
    CountsBelow settings n.form

/-! ## The nearest scope -/

theorem decidesContext_iff {n : Node} :
    decidesContext (some n) = true ↔ n.kind ∈ Tree.scopeKinds := by
  obtain ⟨pos, form⟩ := n
  cases form <;> simp [decidesContext, Tree.scopeKinds, Node.kind, Form.kind]

theorem counts_contextBelow {settings : Settings} {n : Node} :
    (contextBelow (some n)).counts settings = true ↔ CountsBelow settings n.form := by
  obtain ⟨pos, form⟩ := n
  cases form with
  | varDecl d =>
      simp only [contextBelow, CountsBelow, Bool.and_eq_true, Bool.not_eq_true',
        ← Bool.not_eq_true, Modifiers.includes_ofList]
      split <;> simp_all [Context.counts]
  | _ => simp [contextBelow, CountsBelow, Context.counts]

section Class
variable {t : Tree} {f below : Forest} {c : NodeId} {pos : Position} {d : ClassDecl}

theorem ClassIn.ne_of_not_scope (here : ClassIn t f c below pos d) {id : NodeId} {n : Node}
    (held : t.Holds id n) (plain : n.kind ∉ Tree.scopeKinds) : id ≠ c := by
  refine here.ne_of_holds held fun isClass => plain ?_
  simp [isClass, Tree.scopeKinds]

/-- Every number in the class but the class itself has a nearest scope, which gives the context. -/
theorem ClassIn.exists_governor (here : ClassIn t f c below pos d) {up : Path} :
    ∀ {id : NodeId}, (id, up) ∈ (Forest.cons c below .nil).visits [] → id ≠ c →
      ∃ s n, t.Holds s n ∧ n.kind ∈ Tree.scopeKinds ∧ t.Governs s id ∧
        contextAt t up = contextBelow (some n) := by
  induction up with
  | nil =>
      intro id visited inner
      rcases Forest.visit_parent here.follows visited with ⟨isRoot, _⟩ | ⟨_, _, absurd, _⟩
      · exact (inner (by simpa [Forest.roots] using isRoot)).elim
      · simp at absurd
  | cons p up ih =>
      intro id visited inner
      rcases Forest.visit_parent here.follows visited with
        ⟨_, absurd⟩ | ⟨q, up', same, visitedParent, child⟩
      · simp at absurd
      · obtain ⟨rfl, rfl⟩ : p = q ∧ up = up' := by simpa using same
        obtain ⟨n, held⟩ := here.follows.holds (Forest.fst_mem_of_visits visitedParent)
        by_cases scope : n.kind ∈ Tree.scopeKinds
        · refine ⟨p, n, held, scope, .direct child, ?_⟩
          rw [contextAt, held.peek_eq, if_pos (decidesContext_iff.mpr scope)]
        · have inner' : p ≠ c := here.ne_of_not_scope held scope
          obtain ⟨s, m, heldScope, isScope, governs, context⟩ := ih visitedParent inner'
          refine ⟨s, m, heldScope, isScope, governs.deeper ?_ child, ?_⟩
          · rintro ⟨n', held', scope'⟩
            exact scope (held'.unique held ▸ scope')
          · rw [contextAt, held.peek_eq, if_neg (mt decidesContext_iff.mp scope)]
            exact context

/-- The context of a number is that of any scope that governs it. -/
theorem ClassIn.context_of_governs (here : ClassIn t f c below pos d) {s : NodeId} {n : Node}
    (held : t.Holds s n) (scope : n.kind ∈ Tree.scopeKinds) (scopeIn : s ∈ f.ids) {id : NodeId}
    (governs : t.Governs s id) : ∀ {up : Path},
      (id, up) ∈ (Forest.cons c below .nil).visits [] → id ≠ c →
        contextAt t up = contextBelow (some n) := by
  induction governs with
  | direct child =>
      intro up visited inner
      obtain ⟨up', rfl, _⟩ := here.path_eq visited inner scopeIn child
      rw [contextAt, held.peek_eq, if_pos (decidesContext_iff.mpr scope)]
  | @deeper p id above outside child ih =>
      intro up visited inner
      have parentIn := here.shaped.follows.below_mem scopeIn above.isBelow
      obtain ⟨up', rfl, visitedParent⟩ := here.path_eq visited inner parentIn child
      obtain ⟨m, heldParent⟩ := here.shaped.follows.holds parentIn
      have plain : m.kind ∉ Tree.scopeKinds := fun kind => outside ⟨m, heldParent, kind⟩
      have inner' : p ≠ c := here.ne_of_not_scope heldParent plain
      rw [contextAt, heldParent.peek_eq, if_neg (mt decidesContext_iff.mp plain)]
      exact ih visitedParent inner'

/-- The occurrences in a class are the literals that qualify. -/
theorem ClassIn.mem_occurrencesIn_iff (here : ClassIn t f c below pos d)
    (all : ∀ {id : NodeId} {n : Node}, t.Holds id n → id ∈ f.ids) {settings : Settings}
    {value : Text} {id : NodeId} :
    (value, id) ∈ occurrencesIn t settings c below ↔ Qualifies t settings c value id := by
  constructor
  · intro occurs
    obtain ⟨up, litPos, lit, visited, held, isString, value_eq, counts⟩ :=
      mem_occurrencesIn.mp occurs
    have inner := here.ne_of_holds held (by simp [Node.kind, Form.kind])
    obtain ⟨s, n, heldScope, scope, governs, context⟩ :=
      here.exists_governor (visits_ownPart_subset visited) inner
    rw [context, counts_contextBelow] at counts
    rw [Literal.isString, Bool.and_eq_true, beq_iff_eq] at isString
    exact ⟨⟨litPos, lit, held, isString.1, isString.2, value_eq⟩, owned_of_occurrence here occurs,
      s, n, heldScope, scope, governs, counts⟩
  · rintro ⟨⟨litPos, lit, held, kind, type, value_eq⟩, owned, s, n, heldScope, scope, governs,
      counts⟩
    have inner := here.ne_of_holds held (by simp [Node.kind, Form.kind])
    have inside : id ∈ (ownPart t c below).ids := by
      rw [ownPart, Forest.ids_single]
      exact List.mem_cons_of_mem _ ((here.occurs.owned_iff here.shaped.follows).mp owned)
    obtain ⟨up, visited⟩ := Forest.exists_visit [] inside
    have context := here.context_of_governs heldScope scope (all heldScope) governs
      (visits_ownPart_subset visited) inner
    refine mem_occurrencesIn.mpr ⟨up, litPos, lit, visited, held, ?_, value_eq, ?_⟩
    · rw [Literal.isString, kind, type]
      rfl
    · rw [context]
      exact counts_contextBelow.mpr counts

end Class

/-! ## Values in the order of their first occurrences -/

theorem distinct_snoc (values : List Text) (v : Text) :
    distinct (values ++ [v]) = addDistinct (distinct values) v := by
  rw [distinct_eq, distinct_eq, List.foldl_append]
  rfl

theorem mem_addDistinct {seen : List Text} {v w : Text} :
    w ∈ addDistinct seen v ↔ w ∈ seen ∨ w = v := by
  unfold addDistinct
  split
  · rename_i known
    have known' : v ∈ seen := by simpa using known
    exact ⟨.inl, fun either => either.elim id fun same => same ▸ known'⟩
  · simp

theorem mem_distinct {values : List Text} {v : Text} : v ∈ distinct values ↔ v ∈ values := by
  induction values using List.reverseRecOn with
  | nil => rfl
  | append_singleton values w ih => simp [distinct_snoc, mem_addDistinct, ih]

theorem head_sites_groupByValue (found : List (Text × NodeId)) :
    (groupByValue found).filterMap (·.sites.head?) =
      (distinct (found.map Prod.fst)).filterMap fun v =>
        (found.find? (·.1 == v)).map Prod.snd := by
  rw [groupByValue, List.filterMap_map]
  refine List.filterMap_congr fun v _ => ?_
  simp [List.head?_map, List.head?_filter]

/-- The first occurrences of the values stand in the order of the values. -/
theorem head_sites_sublist (found : List (Text × NodeId)) :
    ((groupByValue found).filterMap (·.sites.head?)).Sublist (found.map Prod.snd) := by
  rw [head_sites_groupByValue]
  induction found using List.reverseRecOn with
  | nil => exact .slnil
  | append_singleton found site ih =>
      have seen : (distinct (found.map Prod.fst)).filterMap
            (fun v => ((found ++ [site]).find? (·.1 == v)).map Prod.snd) =
          (distinct (found.map Prod.fst)).filterMap
            fun v => (found.find? (·.1 == v)).map Prod.snd := by
        refine List.filterMap_congr fun v member => ?_
        obtain ⟨earlier, inFound, rfl⟩ := List.mem_map.mp (mem_distinct.mp member)
        have isSome : (found.find? (·.1 == earlier.1)).isSome :=
          List.find?_isSome.mpr ⟨earlier, inFound, by simp⟩
        obtain ⟨first, isFirst⟩ := Option.isSome_iff_exists.mp isSome
        simp [List.find?_append, isFirst]
      rw [List.map_append, List.map_append, List.map_singleton, List.map_singleton, distinct_snoc,
        addDistinct]
      split
      · rw [seen]
        exact ih.trans (List.sublist_append_left _ _)
      · rename_i new
        have absent : site.1 ∉ found.map Prod.fst := by simpa [mem_distinct] using new
        have unseen : found.find? (·.1 == site.1) = none := by
          refine List.find?_eq_none.mpr fun earlier inFound same => absent ?_
          exact List.mem_map.mpr ⟨earlier, inFound, by simpa using same⟩
        rw [List.filterMap_append, seen]
        exact ih.append (by simp [List.find?_append, unseen])

/-! ## Repeated values -/

section Repeated
variable {t : Tree} {f below : Forest} {c : NodeId} {pos : Position} {d : ClassDecl}

theorem ClassIn.repeated_eq (here : ClassIn t f c below pos d) (settings : Settings) :
    repeated t settings c = .ok (repeatedIn t settings c below) := by
  rw [repeated, sites_eq here settings, ok_bind]
  rfl

theorem sites_sublist {settings : Settings} {o : Occurrences}
    (found : o ∈ groupByValue (occurrencesIn t settings c below)) :
    o.sites.Sublist (Forest.cons c below .nil).ids := by
  obtain ⟨v, _, rfl⟩ := List.mem_map.mp found
  have some_ := (List.filter_sublist (p := fun site : Text × NodeId => site.1 == v)
    (l := occurrencesIn t settings c below)).map Prod.snd
  exact some_.trans ((map_snd_occurrencesIn_sublist settings).trans ids_ownPart_sublist)

theorem ClassIn.mem_sites_iff (here : ClassIn t f c below pos d)
    (all : ∀ {id : NodeId} {n : Node}, t.Holds id n → id ∈ f.ids) {settings : Settings}
    {o : Occurrences} (found : o ∈ groupByValue (occurrencesIn t settings c below)) {id : NodeId} :
    id ∈ o.sites ↔ Qualifies t settings c o.value id := by
  rw [sites_of_mem_group found, here.mem_occurrencesIn_iff all]

theorem threshold_le_iff (settings : Settings) (n : Nat) :
    threshold settings ≤ n ↔ ((max 2 settings.minOccurrences).toNat : ℕ∞) ≤ n := by
  rw [Nat.cast_le, threshold]
  omega

/-- A value is repeated exactly if enough literals qualify, two at least. -/
theorem ClassIn.mem_values_iff (here : ClassIn t f c below pos d)
    (all : ∀ {id : NodeId} {n : Node}, t.Holds id n → id ∈ f.ids) {settings : Settings}
    {value : Text} :
    value ∈ (repeatedIn t settings c below).map Occurrences.value ↔
      ((max 2 settings.minOccurrences).toNat : ℕ∞) ≤
        {id | Qualifies t settings c value id}.encard := by
  have count : ∀ o ∈ groupByValue (occurrencesIn t settings c below),
      {id | Qualifies t settings c o.value id}.encard = o.sites.length := by
    intro o found
    exact Forest.encard_setOf_mem (here.nodup.sublist (sites_sublist found))
      fun id => here.mem_sites_iff all found
  constructor
  · intro member
    obtain ⟨o, found, rfl⟩ := List.mem_map.mp member
    obtain ⟨grouped, enough⟩ := List.mem_filter.mp found
    rw [count o grouped]
    exact (threshold_le_iff settings _).mp (of_decide_eq_true enough)
  · intro enough
    have some_ : {id | Qualifies t settings c value id}.Nonempty := by
      have two : (2 : ℕ∞) ≤ (max 2 settings.minOccurrences).toNat := by
        norm_cast
        omega
      exact Set.encard_pos.mp (lt_of_lt_of_le (by decide) (two.trans enough))
    obtain ⟨id, qualifies⟩ := some_
    have occurs := (here.mem_occurrencesIn_iff all).mpr qualifies
    have listed : value ∈ (groupByValue (occurrencesIn t settings c below)).map
        Occurrences.value := by
      rw [values_groupByValue, mem_distinct]
      exact List.mem_map.mpr ⟨_, occurs, rfl⟩
    obtain ⟨o, grouped, rfl⟩ := List.mem_map.mp listed
    rw [count o grouped, ← threshold_le_iff] at enough
    exact List.mem_map.mpr ⟨o, List.mem_filter.mpr ⟨grouped, decide_eq_true enough⟩, rfl⟩

end Repeated

/-- The values that are repeated in a class are those for which enough literals of the class
qualify, in the order of their first occurrences, and each has all of these as its occurrences, in
source order.  No literal is an occurrence in two classes or of two values. -/
theorem repeated_values_are_qualifying {codec : Codec} {bytes : List UInt8} {doc : Document}
    (accepted : Document.read codec bytes = .ok doc) {t : Tree} (member : t ∈ doc.trees)
    {c : NodeId} {pos : Position} {d : ClassDecl} (held : t.Holds c ⟨pos, .classDecl d⟩)
    (settings : Settings) :
    ∃ (part : Forest) (found : List Occurrences), part.roots = [c] ∧ part.Follows t ∧
      part.ids.Nodup ∧ repeated t settings c = .ok found ∧
      (found.map Occurrences.value).Nodup ∧
      (∀ value, value ∈ found.map Occurrences.value ↔
        ((max 2 settings.minOccurrences).toNat : ℕ∞) ≤
          {id | Qualifies t settings c value id}.encard) ∧
      (found.filterMap (·.sites.head?)).Sublist part.ids ∧
      (∀ o ∈ found, o.sites.Sublist part.ids ∧
        ∀ id, id ∈ o.sites ↔ Qualifies t settings c o.value id) ∧
      ∀ settings' c' found', t.IsClass c' → repeated t settings' c' = .ok found' →
        ∀ o ∈ found, ∀ o' ∈ found', ∀ id ∈ o.sites, id ∈ o'.sites →
          c' = c ∧ o'.value = o.value := by
  obtain ⟨f, shaped, all⟩ := exists_shaped_of_held accepted member held
  obtain ⟨below, here⟩ := Shaped.exists_classIn shaped (all held) held
  refine ⟨.cons c below .nil, _, rfl, here.follows, here.nodup, here.repeated_eq settings,
    nodup_values_repeatedIn t settings c below, fun value => here.mem_values_iff all, ?_, ?_, ?_⟩
  · have heads := (List.filter_sublist (p := fun o : Occurrences =>
      threshold settings ≤ o.sites.length)
      (l := groupByValue (occurrencesIn t settings c below))).filterMap (·.sites.head?)
    exact heads.trans ((head_sites_sublist _).trans
      ((map_snd_occurrencesIn_sublist settings).trans ids_ownPart_sublist))
  · intro o found
    have grouped := (List.mem_filter.mp found).1
    exact ⟨sites_sublist grouped, fun id => here.mem_sites_iff all grouped⟩
  · rintro settings' c' found' ⟨pos', d', held'⟩ run o found o' foundIn id site site'
    obtain ⟨within, there⟩ := Shaped.exists_classIn shaped (all held') held'
    obtain rfl := Except.ok.inj ((there.repeated_eq settings').symm.trans run)
    have first := (here.mem_sites_iff all (List.mem_filter.mp found).1).mp site
    have second := (there.mem_sites_iff all (List.mem_filter.mp foundIn).1).mp site'
    obtain ⟨_, lit, literal, _, _, value⟩ := first.literal
    obtain ⟨_, lit', literal', _, _, value'⟩ := second.literal
    obtain ⟨_, rfl⟩ := literal.literal_unique literal'
    exact ⟨shaped.owner_unique there.mem here.mem there.isClass here.isClass second.owned
      first.owned, value'.symm.trans value⟩

/-- A class with the value `"on"` in its annotation, in a call that is the initial value of a
constant, in a final field and in a nested class, and the value `"off"` in a final field and in one
that is not final. -/
def mixedUseUnit : Tree where
  root := 21
  nodes := #[
    some { form := .literal { value := "on", type := "String" } },
    some { form := .annot "Named" [1] },
    some { form := .literal { value := "on", type := "String" } },
    some { form := .call 0 "f" [3] "String" },
    some { form := .namedVar "GO" 4 },
    some { form := .varDecl { mods := .constant, type := "String", vars := [5] } },
    some { form := .literal { value := "on", type := "String" } },
    some { form := .literal { value := "off", type := "String" } },
    some { form := .parens 8 },
    some { form := .binary "+" 7 9 "" },
    some { form := .namedVar "x" 10 },
    some { form := .varDecl { mods := .ofList [.final], type := "String", vars := [11] } },
    some { form := .literal { value := "off", type := "String" } },
    some { form := .namedVar "y" 13 },
    some { form := .varDecl { type := "String", vars := [14] } },
    some { form := .literal { value := "on", type := "String" } },
    some { form := .namedVar "z" 16 },
    some { form := .varDecl { mods := .ofList [.final], type := "String", vars := [17] } },
    some { form := .classDecl { name := "B", fqn := "A.B", members := [18] } },
    some { form := .classDecl {
      annotations := [2], name := "A", fqn := "A", members := [6, 12, 15, 19] } },
    some { form := .unit { name := "A.java", classes := [20] } }]

theorem mixedUseUnit_qualifying :
    (∀ id, id ∈ [3, 7] ↔ Qualifies mixedUseUnit { countAnnotations := false } 20 "on" id) ∧
      (∀ id, id ∈ [1, 3, 7] ↔ Qualifies mixedUseUnit {} 20 "on" id) ∧
      ¬ 2 ≤ {id | Qualifies mixedUseUnit {} 20 "off" id}.encard := by
  have accepted := read_writtenUnit (t := mixedUseUnit) (by decide +kernel)
  have held : mixedUseUnit.Holds 20 ⟨{}, .classDecl
      { annotations := [2], name := "A", fqn := "A", members := [6, 12, 15, 19] }⟩ := rfl
  obtain ⟨_, few, _, _, _, fewRun, _, _, _, fewSites, _⟩ := repeated_values_are_qualifying accepted
    (List.mem_singleton.mpr rfl) held { countAnnotations := false }
  obtain ⟨_, many, _, _, _, manyRun, _, manyValues, _, manySites, _⟩ :=
    repeated_values_are_qualifying accepted (List.mem_singleton.mpr rfl) held {}
  have fewListed : (repeated mixedUseUnit { countAnnotations := false } 20).toOption =
      some [⟨"on", [3, 7]⟩] := by decide +kernel
  have manyListed : (repeated mixedUseUnit {} 20).toOption = some [⟨"on", [1, 3, 7]⟩] := by
    decide +kernel
  rw [fewRun, Except.toOption, Option.some_inj] at fewListed
  rw [manyRun, Except.toOption, Option.some_inj] at manyListed
  subst fewListed manyListed
  refine ⟨(fewSites _ (List.mem_singleton.mpr rfl)).2,
    (manySites _ (List.mem_singleton.mpr rfl)).2, fun enough => ?_⟩
  have listed := (manyValues "off").mpr enough
  simp only [List.map_cons, List.map_nil, List.mem_singleton] at listed
  exact absurd listed (by decide)

end LiteralHoist.Consolidate
