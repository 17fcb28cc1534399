import LiteralHoist.Proofs.Consolidate.ClassPlan

/-!
# Replaced literals and new constants

Carrying out the groups of a plan overwrites their literals and appends three nodes for each new
constant: its initial value, its variable and its declaration.  `Replaces` says so for any list of
groups; it holds of a single group, and of a list if it holds of its parts.  The trees of the new
constants are `newTrees`, one after the other behind the nodes that were there.
-/

set_option autoImplicit false

namespace LiteralHoist.Consolidate

open LiteralHoist.Source

/-! ## Literals -/

/-- A reference to the field of a class stands where a literal was. -/
def RefersFrom (t : Tree) (fqn name : Text) (id : NodeId) (pos : Position) (lit : Literal) :
    Prop :=
  ∃ field : FieldSymbol, t.Holds id ⟨pos, .ident name lit.type (some field)⟩ ∧
    field.owner = fqn ∧ field.name = name

theorem replaceSites_eq (fqn name : Text) (sites : List NodeId) : ∀ {t : Tree} (type : Text),
    (∀ id ∈ sites, ∃ pos lit, t.Holds id ⟨pos, .literal lit⟩) → sites.Nodup →
    ∃ t' type', sites.foldlM (replaceSite fqn name) (t, type) = .ok (t', type') ∧
      t'.root = t.root ∧ t'.size = t.size ∧
      (∀ id ∈ sites, ∀ pos lit, t.Holds id ⟨pos, .literal lit⟩ →
        RefersFrom t' fqn name id pos lit) ∧
      ∀ id n, t.Holds id n → id ∉ sites → t'.Holds id n := by
  induction sites with
  | nil => intro t type _ _; exact ⟨t, type, rfl, rfl, rfl, by simp, fun _ _ held _ => held⟩
  | cons site rest ih =>
      intro t type literal nodup
      rw [List.nodup_cons] at nodup
      obtain ⟨pos, lit, here⟩ := literal site (by simp)
      let known := if type = "" then lit.type else type
      let field : FieldSymbol := { owner := fqn, name, mods := .constant, type := known }
      obtain ⟨u, written, first⟩ := Tree.set_of_holds here ⟨pos, .ident name lit.type (some field)⟩
      have other : ∀ id n, t.Holds id n → id ≠ site → u.Holds id n := by
        intro id n held differ
        have held' := first.holds held
        rwa [if_neg differ] at held'
      have literal' : ∀ id ∈ rest, ∃ pos lit, u.Holds id ⟨pos, .literal lit⟩ := by
        intro id member
        obtain ⟨pos', lit', held⟩ := literal id (by simp [member])
        exact ⟨pos', lit', other id _ held (by rintro rfl; exact nodup.1 member)⟩
      obtain ⟨t', type', run, root_eq, size_eq, refers, keeps⟩ := ih known literal' nodup.2
      refine ⟨t', type', ?_, root_eq.trans first.root_eq, size_eq.trans first.size_eq, ?_, ?_⟩
      · rw [List.foldlM_cons, replaceSite, literalAt, here.node?_eq, ok_bind]
        simp only [pure_eq_ok, ok_bind]
        have written' : t.set site (some ⟨pos, .ident name lit.type (some
            { owner := fqn, name, mods := .constant,
              type := if type = "" then lit.type else type })⟩) = .ok u := written
        rw [written', ok_bind]
        exact run
      · intro id member pos' lit' held
        rcases List.mem_cons.mp member with rfl | later
        · obtain ⟨rfl, rfl⟩ := held.literal_unique here
          have here' := first.holds here
          rw [if_pos rfl] at here'
          exact ⟨field, keeps id _ here' nodup.1, rfl, rfl⟩
        · exact refers id later pos' lit' (other id _ held (by rintro rfl; exact nodup.1 later))
      · intro id n held outside
        simp only [List.mem_cons, not_or] at outside
        exact keeps id n (other id n held outside.1) outside.2

/-! ## New constants -/

/-- The three nodes after the first `base` ones declare a constant. -/
structure DeclaredAt (t : Tree) (name : Text) (lit : Literal) (base : Nat) : Prop where
  initial : t.Holds (base + 1) ⟨{}, .literal lit⟩
  variable_ : t.Holds (base + 2) ⟨{}, .namedVar name (base + 1)⟩
  declaration : t.Holds (base + 3)
    ⟨{}, .varDecl { mods := .constant, type := lit.type, vars := [base + 2] }⟩

theorem DeclaredAt.keeps {t t' : Tree} {name : Text} {lit : Literal} {base : Nat}
    (declared : DeclaredAt t name lit base)
    (keeps : ∀ (id : Nat) n, base < id → t.Holds id n → t'.Holds id n) :
    DeclaredAt t' name lit base where
  initial := keeps _ _ (by omega) declared.initial
  variable_ := keeps _ _ (by omega) declared.variable_
  declaration := keeps _ _ (by omega) declared.declaration

theorem declareConstant_eq (t : Tree) (name : Text) (lit : Literal) :
    ∃ t', declareConstant t name lit = (t', t.size + 3) ∧ t'.root = t.root ∧
      t'.size = t.size + 3 ∧ (∀ id n, t.Holds id n → t'.Holds id n) ∧
      DeclaredAt t' name lit t.size := by
  let initial : Node := { form := .literal lit }
  let a := (t.push initial).1
  have sizeA : a.size = t.size + 1 := Tree.size_push t initial
  let variable_ : Node := { form := .namedVar name (t.size + 1) }
  let b := (a.push variable_).1
  have sizeB : b.size = t.size + 2 := by rw [Tree.size_push, sizeA]
  let declaration : Node :=
    { form := .varDecl { mods := .constant, type := lit.type, vars := [a.size + 1] } }
  have last := Tree.holds_push_new b declaration
  have middle := (Tree.holds_push_new a variable_).push declaration
  have first := ((Tree.holds_push_new t initial).push variable_).push declaration
  rw [sizeB] at last
  rw [sizeA] at middle
  have content : declaration =
      ⟨{}, .varDecl { mods := .constant, type := lit.type, vars := [t.size + 2] }⟩ := by
    simp only [declaration, sizeA]
  refine ⟨(b.push declaration).1, ?_, rfl, ?_, fun id n held => ?_, first, middle, ?_⟩
  · have number : (b.push declaration).2 = t.size + 3 := by
      change b.size + 1 = _
      rw [sizeB]
    rw [← number]
    rfl
  · rw [Tree.size_push, sizeB]
  · exact ((held.push initial).push variable_).push declaration
  · exact content ▸ last

/-! ## Groups -/

def inserted (groups : List Group) : List Group :=
  groups.filter fun g => g.action == .insert

def newTrees : Nat → Nat → Forest
  | _, 0 => .nil
  | base, count + 1 =>
    .cons (base + 3) (.cons (base + 2) (.cons (base + 1) .nil .nil) .nil)
      (newTrees (base + 3) count)

/-- Groups are carried out: their literals become references, and each new constant is declared
behind what was there. -/
structure Replaces (t t' : Tree) (fqn : Text) (groups : List Group) : Prop where
  root_eq : t'.root = t.root
  size_eq : t'.size = t.size + 3 * (inserted groups).length
  site : ∀ g ∈ groups, ∀ id ∈ g.sites, ∀ pos lit, t.Holds id ⟨pos, .literal lit⟩ →
    RefersFrom t' fqn g.name id pos lit
  kept : ∀ id n, t.Holds id n → (∀ g ∈ groups, id ∉ g.sites) → t'.Holds id n
  new : ∀ i g, (inserted groups)[i]? = some g →
    ∃ lit, lit.isString = true ∧ lit.value = g.value ∧ DeclaredAt t' g.name lit (t.size + 3 * i)

def SitesHold (t : Tree) (g : Group) : Prop :=
  ∀ id ∈ g.sites, ∃ pos lit,
    t.Holds id ⟨pos, .literal lit⟩ ∧ lit.isString = true ∧ lit.value = g.value

theorem SitesHold.le_size {t : Tree} {g : Group} (literal : SitesHold t g) {id : Nat}
    (site : id ∈ g.sites) : id ≤ t.size := by
  obtain ⟨_, _, held, _⟩ := literal id site
  exact held.le_size

@[simp] theorem inserted_nil : inserted [] = [] :=
  rfl

theorem inserted_cons_new {g : Group} (new : g.action = .insert) (rest : List Group) :
    inserted (g :: rest) = g :: inserted rest := by
  simp [inserted, new]

theorem inserted_cons_old {g : Group} (old : g.action ≠ .insert) (rest : List Group) :
    inserted (g :: rest) = inserted rest := by
  simp [inserted, old]

theorem firstLiteral_eq {t : Tree} {g : Group} (occurs : g.sites ≠ []) (literal : SitesHold t g) :
    ∃ lit, firstLiteral t g = .ok lit ∧ lit.isString = true ∧ lit.value = g.value := by
  obtain ⟨first, rest, sites⟩ := List.exists_cons_of_ne_nil occurs
  obtain ⟨pos, lit, held, isString, value_eq⟩ := literal first (by simp [sites])
  refine ⟨lit, ?_, isString, value_eq⟩
  rw [firstLiteral, sites]
  simp only [literalAt, held.node?_eq, ok_bind, pure_eq_ok]

theorem carryOutGroup_declares {t : Tree} (fqn : Text) {g : Group} (occurs : g.sites ≠ [])
    (literal : SitesHold t g) (nodup : g.sites.Nodup) (new : g.action = .insert) :
    ∃ t', carryOutGroup fqn t g = .ok (t', [t.size + 3]) ∧ Replaces t t' fqn [g] := by
  obtain ⟨lit, prototype, isString, value_eq⟩ := firstLiteral_eq occurs literal
  obtain ⟨u, declare, root_u, size_u, keeps_u, declared⟩ := declareConstant_eq t g.name lit
  have literal' : ∀ id ∈ g.sites, ∃ pos lit, u.Holds id ⟨pos, .literal lit⟩ := by
    intro id site
    obtain ⟨pos, lit', held, _⟩ := literal id site
    exact ⟨pos, lit', keeps_u _ _ held⟩
  obtain ⟨t', type, run, root_eq, size_eq, refers, keeps⟩ :=
    replaceSites_eq fqn g.name g.sites lit.type literal' nodup
  refine ⟨t', ?_, root_eq.trans root_u, ?_, ?_, ?_, ?_⟩
  · simp only [carryOutGroup, new, prototype, ok_bind, declare, run]
    rfl
  · rw [size_eq, size_u, inserted_cons_new new]
    rfl
  · intro g' member id site pos' lit' held'
    obtain rfl := List.mem_singleton.mp member
    exact refers id site pos' lit' (keeps_u _ _ held')
  · intro id n held' outside
    exact keeps id n (keeps_u _ _ held') (outside g (by simp))
  · intro i g' place
    rw [inserted_cons_new new] at place
    obtain ⟨rfl, rfl⟩ : i = 0 ∧ g = g' := by
      cases i with
      | zero => exact ⟨rfl, by simpa using place⟩
      | succ i => simp at place
    refine ⟨lit, isString, value_eq, declared.keeps fun id n beyond held' => ?_⟩
    refine keeps id n held' fun site => ?_
    have inside := literal.le_size site
    omega

theorem carryOutGroup_reuses {t : Tree} (fqn : Text) {g : Group} (literal : SitesHold t g)
    (nodup : g.sites.Nodup) (old : g.action ≠ .insert) :
    ∃ t', carryOutGroup fqn t g = .ok (t', []) ∧ Replaces t t' fqn [g] := by
  have literal' : ∀ id ∈ g.sites, ∃ pos lit, t.Holds id ⟨pos, .literal lit⟩ := by
    intro id site
    obtain ⟨pos, lit, held, _⟩ := literal id site
    exact ⟨pos, lit, held⟩
  obtain ⟨t', type, run, root_eq, size_eq, refers, keeps⟩ :=
    replaceSites_eq fqn g.name g.sites "" literal' nodup
  refine ⟨t', ?_, root_eq, ?_, ?_, ?_, ?_⟩
  · unfold carryOutGroup
    split
    · contradiction
    · rw [run, ok_bind]
      rfl
  · rw [size_eq, inserted_cons_old old]
    rfl
  · intro g' member id site
    obtain rfl := List.mem_singleton.mp member
    exact refers id site
  · intro id n held outside
    exact keeps id n held (outside g (by simp))
  · intro i g' place
    simp [inserted_cons_old old] at place

theorem carryOutGroup_replaces {t : Tree} (fqn : Text) {g : Group} (occurs : g.sites ≠ [])
    (literal : SitesHold t g) (nodup : g.sites.Nodup) :
    ∃ t', carryOutGroup fqn t g =
        .ok (t', (newTrees t.size (inserted [g]).length).roots) ∧
      Replaces t t' fqn [g] := by
  by_cases new : g.action = .insert
  · rw [inserted_cons_new new]
    exact carryOutGroup_declares fqn occurs literal nodup new
  · rw [inserted_cons_old new]
    exact carryOutGroup_reuses fqn literal nodup new

theorem Replaces.trans {t u v : Tree} {fqn : Text} {g : Group} {rest : List Group}
    (first : Replaces t u fqn [g]) (later : Replaces u v fqn rest)
    (literal : ∀ g' ∈ g :: rest, SitesHold t g')
    (apart : ∀ id ∈ g.sites, ∀ g' ∈ rest, id ∉ g'.sites) : Replaces t v fqn (g :: rest) := by
  have split_inserted : inserted (g :: rest) = inserted [g] ++ inserted rest := by
    simp only [inserted, ← List.filter_append, List.singleton_append]
  have inner : ∀ id ∈ g.sites, ∀ n, u.Holds id n → v.Holds id n := by
    intro id site n held
    exact later.kept id n held (apart id site)
  refine ⟨later.root_eq.trans first.root_eq, ?_, ?_, ?_, ?_⟩
  · rw [later.size_eq, first.size_eq, split_inserted, List.length_append]
    omega
  · intro g' member id site pos lit held
    rcases List.mem_cons.mp member with rfl | isLater
    · obtain ⟨field, held', owner, name⟩ := first.site g' (by simp) id site pos lit held
      exact ⟨field, inner id site _ held', owner, name⟩
    · refine later.site g' isLater id site pos lit (first.kept id _ held fun g'' single => ?_)
      obtain rfl := List.mem_singleton.mp single
      exact fun inFirst => apart id inFirst g' isLater site
  · intro id n held outside
    refine later.kept id n (first.kept id n held fun g' single => ?_) fun g' member => ?_
    · exact outside g' (List.mem_cons.mpr (.inl (List.mem_singleton.mp single)))
    · exact outside g' (by simp [member])
  · intro i g' place
    rw [split_inserted] at place
    by_cases early : i < (inserted [g]).length
    · rw [List.getElem?_append_left early] at place
      obtain ⟨lit, isString, value_eq, declared⟩ := first.new i g' place
      refine ⟨lit, isString, value_eq, declared.keeps fun id n beyond held => ?_⟩
      refine later.kept id n held fun g'' member site => ?_
      have inside := (literal g'' (by simp [member])).le_size site
      omega
    · rw [List.getElem?_append_right (by omega)] at place
      obtain ⟨lit, isString, value_eq, declared⟩ := later.new _ g' place
      refine ⟨lit, isString, value_eq, ?_⟩
      rw [first.size_eq] at declared
      have shift : t.size + 3 * (inserted [g]).length + 3 * (i - (inserted [g]).length) =
          t.size + 3 * i := by omega
      rwa [shift] at declared

theorem carryOutGroups_replaces (fqn : Text) (groups : List Group) : ∀ {t : Tree},
    (∀ g ∈ groups, g.sites ≠ []) → (∀ g ∈ groups, SitesHold t g) →
    (groups.flatMap Group.sites).Nodup →
    ∃ t', carryOutGroups fqn t groups =
        .ok (t', (newTrees t.size (inserted groups).length).roots) ∧
      Replaces t t' fqn groups := by
  induction groups with
  | nil =>
      intro t _ _ _
      exact ⟨t, rfl, rfl, rfl, by simp, fun _ _ held _ => held, by simp [inserted]⟩
  | cons g rest ih =>
      intro t occurs literal nodup
      rw [List.flatMap_cons, List.nodup_append] at nodup
      obtain ⟨nodupHere, nodupRest, differ⟩ := nodup
      have apart : ∀ id ∈ g.sites, ∀ g' ∈ rest, id ∉ g'.sites := by
        intro id site g' member site'
        exact differ id site id (List.mem_flatMap.mpr ⟨g', member, site'⟩) rfl
      obtain ⟨u, run, first⟩ := carryOutGroup_replaces fqn (occurs g (by simp))
        (literal g (by simp)) nodupHere
      have literal' : ∀ g' ∈ rest, SitesHold u g' := by
        intro g' member id site
        obtain ⟨pos, lit, held, isString, value_eq⟩ := literal g' (by simp [member]) id site
        refine ⟨pos, lit, first.kept id _ held fun g'' single => ?_, isString, value_eq⟩
        obtain rfl := List.mem_singleton.mp single
        exact fun inFirst => apart id inFirst g' member site
      obtain ⟨t', runRest, later⟩ := ih (fun g' member => occurs g' (by simp [member])) literal'
        nodupRest
      refine ⟨t', ?_, first.trans later literal apart⟩
      simp only [carryOutGroups, run, ok_bind, runRest, pure_eq_ok, first.size_eq]
      by_cases new : g.action = .insert
      · simp [inserted_cons_new new, newTrees, Forest.roots]
      · simp [inserted_cons_old new, newTrees, Forest.roots]

/-! ## Trees of new declarations -/

theorem mem_newTrees {id : Nat} : ∀ {count base : Nat}, id ∈ (newTrees base count).ids →
    ∃ i < count, id = base + 3 * i + 3 ∨ id = base + 3 * i + 2 ∨ id = base + 3 * i + 1 := by
  intro count
  induction count with
  | zero => intro base member; simp [newTrees, Forest.ids] at member
  | succ count ih =>
      intro base member
      simp only [newTrees, Forest.ids, List.append_nil, List.cons_append, List.nil_append,
        List.mem_cons] at member
      rcases member with first | second | third | later
      · exact ⟨0, by omega, .inl first⟩
      · exact ⟨0, by omega, .inr (.inl second)⟩
      · exact ⟨0, by omega, .inr (.inr third)⟩
      · obtain ⟨i, small, place⟩ := ih later
        exact ⟨i + 1, by omega, by omega⟩

theorem mem_roots_newTrees {id : Nat} : ∀ {count base : Nat}, id ∈ (newTrees base count).roots →
    ∃ i < count, id = base + 3 * i + 3 := by
  intro count
  induction count with
  | zero => intro base member; simp [newTrees, Forest.roots] at member
  | succ count ih =>
      intro base member
      simp only [newTrees, Forest.roots, List.mem_cons] at member
      rcases member with first | later
      · exact ⟨0, by omega, first⟩
      · obtain ⟨i, small, place⟩ := ih later
        exact ⟨i + 1, by omega, by omega⟩

theorem root_newTrees : ∀ {count base i : Nat}, i < count →
    base + 3 * i + 3 ∈ (newTrees base count).roots := by
  intro count
  induction count with
  | zero => intro base i small; omega
  | succ count ih =>
      intro base i small
      simp only [newTrees, Forest.roots, List.mem_cons]
      cases i with
      | zero => exact .inl rfl
      | succ i =>
          have shift : base + 3 * (i + 1) + 3 = base + 3 + 3 * i + 3 := by omega
          rw [shift]
          exact .inr (ih (by omega))

theorem lt_of_mem_newTrees {base count id : Nat} (member : id ∈ (newTrees base count).ids) :
    base < id := by
  obtain ⟨i, _, place⟩ := mem_newTrees member
  omega

theorem nodup_newTrees : ∀ count base : Nat, (newTrees base count).ids.Nodup := by
  intro count
  induction count with
  | zero => intro base; simp [newTrees, Forest.ids]
  | succ count ih =>
      intro base
      have beyond : ∀ id : Nat, id ≤ base + 3 → id ∉ (newTrees (base + 3) count).ids := by
        intro id small member
        have large := lt_of_mem_newTrees member
        omega
      simp only [newTrees, Forest.ids, List.append_nil, List.cons_append, List.nil_append,
        List.nodup_cons, List.mem_cons, not_or]
      refine ⟨⟨Nat.ne_of_gt (by omega), Nat.ne_of_gt (by omega), ?_⟩,
        ⟨Nat.ne_of_gt (by omega), ?_⟩, ?_, ih _⟩
      · exact beyond _ (by omega)
      · exact beyond _ (by omega)
      · exact beyond _ (by omega)

theorem length_newTrees (count : Nat) : ∀ base, (newTrees base count).ids.length = 3 * count := by
  induction count with
  | zero => exact fun _ => rfl
  | succ count ih =>
      intro base
      simp only [newTrees, Forest.ids, List.append_nil, List.cons_append, List.nil_append,
        List.length_cons, ih]
      omega

theorem forall₂_roots_newTrees {α : Type} {relates : NodeId → α → Prop} (items : List α) :
    ∀ base : Nat, (∀ (i : Nat) a, items[i]? = some a → relates (base + 3 * i + 3) a) →
      List.Forall₂ relates (newTrees base items.length).roots items := by
  induction items with
  | nil => exact fun _ _ => .nil
  | cons a items ih =>
      intro base each
      refine .cons (each 0 a rfl) (ih (base + 3) fun i b place => ?_)
      have shift : base + 3 + 3 * i + 3 = base + 3 * (i + 1) + 3 := by omega
      rw [shift]
      exact each (i + 1) b place

theorem follows_newTrees {t : Tree} : ∀ {count base : Nat},
    (∀ i < count, ∃ name lit, DeclaredAt t name lit (base + 3 * i)) →
    (newTrees base count).Follows t := by
  intro count
  induction count with
  | zero => intro base _; trivial
  | succ count ih =>
      intro base declared
      obtain ⟨name, lit, first⟩ := declared 0 (by omega)
      refine ⟨⟨_, first.declaration, ?_⟩, ⟨⟨_, first.variable_, ?_⟩,
        ⟨⟨_, first.initial, rfl⟩, trivial, trivial⟩, trivial⟩, ih fun i small => ?_⟩
      · simp [Form.children, Form.places, Forest.roots]
      · simp [Form.children, Form.places, Forest.roots]
      · obtain ⟨name', lit', later⟩ := declared (i + 1) (by omega)
        have shift : base + 3 * (i + 1) = base + 3 + 3 * i := by omega
        exact ⟨name', lit', shift ▸ later⟩

-- From here on `newTrees` is opened by its equations only.  If unification could open it, every
-- comparison of a class with its edited form would evaluate the plan of the class.
attribute [irreducible] newTrees

end LiteralHoist.Consolidate
