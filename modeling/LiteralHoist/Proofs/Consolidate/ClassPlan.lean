import LiteralHoist.Proofs.Consolidate.Planning

/-!
# The plan of a class

A class of a shaped tree always gets a plan, unless its type was not resolved.  `Fits` gathers what
holds of the groups of a plan in the tree that they were planned for: carrying out a plan relies on
nothing else.
-/

set_option autoImplicit false

namespace LiteralHoist.Consolidate

open LiteralHoist.Source

def occurrencesIn (t : Tree) (settings : Settings) (c : NodeId) (below : Forest) :
    List (Text × NodeId) :=
  ((ownPart t c below).visits []).flatMap (siteAt t settings)

def repeatedIn (t : Tree) (settings : Settings) (c : NodeId) (below : Forest) :
    List Occurrences :=
  (groupByValue (occurrencesIn t settings c below)).filter fun o =>
    threshold settings ≤ o.sites.length

def boundIn (t : Tree) (c : NodeId) (below : Forest) (fqn : Text) : List Text :=
  (Forest.cons c below .nil).ids.filterMap fun id => boundName fqn (t.peek id)

def declaredIn (t : Tree) (d : ClassDecl) : List Constant :=
  d.members.flatMap (declaredBy t)

def classPlan (t : Tree) (settings : Settings) (c : NodeId) (below : Forest) (d : ClassDecl) :
    Plan :=
  let planned := planGroups settings (firstOfEach (declaredIn t d))
    { bound := boundIn t c below d.fqn } (repeatedIn t settings c below)
  { classId := c, fqn := d.fqn, groups := planned.1, skipped := planned.2 }

section Class
variable {t : Tree} {f below : Forest} {c : NodeId} {pos : Position} {d : ClassDecl}

theorem planClass_eq (here : ClassIn t f c below pos d) (settings : Settings)
    (resolved : d.fqn ≠ "") :
    planClass t settings c = .ok (.ok (classPlan t settings c below d)) := by
  rw [planClass, here.held.classAt?_eq, ok_bind]
  simp only [if_neg resolved]
  have found : repeated t settings c = .ok (repeatedIn t settings c below) := by
    rw [repeated, sites_eq here settings, ok_bind]
    rfl
  rw [found, ok_bind]
  cases values : repeatedIn t settings c below with
  | nil => simp [classPlan, values, planGroups, pure_eq_ok]
  | cons o rest =>
      rw [constants_eq here, boundNames_eq here, ok_bind, ok_bind]
      simp only [List.isEmpty_cons, Bool.false_eq_true, if_false, classPlan, values]
      rfl

theorem planClass_unresolved (held : t.Holds c ⟨pos, .classDecl d⟩) (settings : Settings)
    (unresolved : d.fqn = "") : planClass t settings c = .ok (.error ⟨pos, d.name⟩) := by
  rw [planClass, held.classAt?_eq, ok_bind]
  simp only [if_pos unresolved]
  rfl

theorem mem_siteAt {settings : Settings} {v : NodeId × Path} {value : Text} {id : NodeId} :
    (value, id) ∈ siteAt t settings v ↔
      id = v.1 ∧ ∃ pos lit, t.Holds id ⟨pos, .literal lit⟩ ∧ lit.isString = true ∧
        lit.value = value ∧ (contextAt t v.2).counts settings = true := by
  constructor
  · intro member
    unfold siteAt at member
    split at member
    · rename_i pos lit found
      split at member
      · rename_i checked
        obtain ⟨rfl, rfl⟩ : value = lit.value ∧ id = v.1 := by simpa using member
        simp only [Bool.and_eq_true] at checked
        exact ⟨rfl, pos, lit, Tree.holds_of_peek found, checked.1, rfl, checked.2⟩
      · simp at member
    · simp at member
  · rintro ⟨rfl, pos, lit, held, isString, rfl, counts⟩
    simp [siteAt, held.peek_eq, isString, counts]

theorem mem_occurrencesIn {settings : Settings} {value : Text} {id : NodeId} :
    (value, id) ∈ occurrencesIn t settings c below ↔
      ∃ up pos lit, (id, up) ∈ (ownPart t c below).visits [] ∧
        t.Holds id ⟨pos, .literal lit⟩ ∧ lit.isString = true ∧ lit.value = value ∧
        (contextAt t up).counts settings = true := by
  constructor
  · intro member
    obtain ⟨⟨i, up⟩, visited, site⟩ := List.mem_flatMap.mp member
    obtain ⟨rfl, pos, lit, held, isString, value_eq, counts⟩ := mem_siteAt.mp site
    exact ⟨up, pos, lit, visited, held, isString, value_eq, counts⟩
  · rintro ⟨up, pos, lit, visited, held, isString, value_eq, counts⟩
    exact List.mem_flatMap.mpr ⟨(id, up), visited,
      mem_siteAt.mpr ⟨rfl, pos, lit, held, isString, value_eq, counts⟩⟩

theorem map_snd_siteAt_sublist (settings : Settings) (v : NodeId × Path) :
    ((siteAt t settings v).map Prod.snd).Sublist [v.1] := by
  unfold siteAt
  split
  · split <;> simp
  · simp

theorem map_snd_occurrencesIn_sublist (settings : Settings) :
    ((occurrencesIn t settings c below).map Prod.snd).Sublist (ownPart t c below).ids := by
  rw [← Forest.map_fst_visits (ownPart t c below) [], occurrencesIn]
  induction (ownPart t c below).visits [] with
  | nil => exact .slnil
  | cons v rest ih =>
      rw [List.flatMap_cons, List.map_append, List.map_cons, ← List.singleton_append]
      exact (map_snd_siteAt_sublist settings v).append ih

theorem ids_ownPart_sublist :
    (ownPart t c below).ids.Sublist (Forest.cons c below .nil).ids := by
  rw [ownPart, Forest.ids_single, Forest.ids_single]
  exact (Forest.ids_clip_sublist _ _).cons_cons _

theorem nodup_occurrencesIn (here : ClassIn t f c below pos d) (settings : Settings) :
    ((occurrencesIn t settings c below).map Prod.snd).Nodup :=
  here.nodup.sublist ((map_snd_occurrencesIn_sublist settings).trans ids_ownPart_sublist)

theorem owned_of_occurrence (here : ClassIn t f c below pos d) {settings : Settings}
    {value : Text} {id : NodeId} (occurs : (value, id) ∈ occurrencesIn t settings c below) :
    t.OwnedBy c id := by
  obtain ⟨up, pos', lit, visited, held, _⟩ := mem_occurrencesIn.mp occurs
  have inside := Forest.fst_mem_of_visits visited
  rw [ownPart, Forest.ids_single, List.mem_cons] at inside
  rcases inside with rfl | nested
  · have absurd := held.unique here.held
    simp at absurd
  · exact (here.occurs.owned_iff here.shaped.follows).mpr nested

theorem includes_of_union {a b : Modifiers} {u : Modifiers}
    (covers : u.bits &&& b.bits = b.bits) (included : a.includes u = true) :
    a.includes b = true := by
  simp only [Modifiers.includes, beq_iff_eq] at included ⊢
  rw [← covers, ← BitVec.and_assoc, included]

theorem contextBelow_constant {vd : VarDecl} {pos : Position}
    (declares : declaresConstants vd = true) :
    contextBelow (some ⟨pos, .varDecl vd⟩) = .other := by
  simp only [declaresConstants, Bool.and_eq_true] at declares
  have hidden : vd.mods.includes (.ofList [.priv, .static]) = true :=
    includes_of_union (by decide) declares.1
  simp [contextBelow, hidden]

theorem visits_ownPart_subset :
    (ownPart t c below).visits [] ⊆ (Forest.cons c below .nil).visits [] := by
  intro v visited
  simp only [ownPart, Forest.visits, List.append_nil, List.mem_cons] at visited ⊢
  exact visited.imp_right fun inside => (Forest.visits_clip_sublist _ _ _).subset inside

theorem ClassIn.path_eq (here : ClassIn t f c below pos d) {p id : NodeId} {up : Path}
    (visited : (id, up) ∈ (Forest.cons c below .nil).visits []) (inner : id ≠ c)
    (parentIn : p ∈ f.ids) (child : t.Child p id) :
    ∃ up', up = p :: up' ∧ (p, up') ∈ (Forest.cons c below .nil).visits [] := by
  rcases Forest.visit_parent here.follows visited with
    ⟨isRoot, _⟩ | ⟨q, up', rfl, visitedParent, child'⟩
  · exact absurd (by simpa [Forest.roots] using isRoot) inner
  · have inside := here.part_subset (Forest.fst_mem_of_visits visitedParent)
    obtain rfl := Forest.parent_unique here.shaped.follows here.shaped.nodup inside parentIn
      child' child
    exact ⟨up', rfl, visitedParent⟩

theorem ClassIn.ne_of_holds (here : ClassIn t f c below pos d) {id : NodeId} {n : Node}
    (held : t.Holds id n) (other : n.kind ≠ .classDecl) : id ≠ c := by
  rintro rfl
  rw [held.unique here.held] at other
  exact other rfl

theorem ClassIn.member_mem (here : ClassIn t f c below pos d) {m : NodeId}
    (isMember : m ∈ d.members) : m ∈ f.ids :=
  here.shaped.follows.child_mem here.mem
    (here.shaped.child_of_member here.mem here.held isMember)

/-- The initial value of a constant is no occurrence: the path that leads to it goes up over the
variable to the declaration. -/
theorem initial_not_occurrence (here : ClassIn t f c below pos d) {settings : Settings}
    {k : Constant} {member init : NodeId} {vd : VarDecl} {lit : Literal}
    (constant : IsConstant t d k member init vd lit) (value : Text) :
    (value, init) ∉ occurrencesIn t settings c below := by
  intro occurs
  obtain ⟨up, _, _, visited, _, _, _, counts⟩ := mem_occurrencesIn.mp occurs
  obtain ⟨declPos, declaration⟩ := constant.declaration
  obtain ⟨varPos, variable_⟩ := constant.variable_
  obtain ⟨initPos, initial⟩ := constant.initial
  have memberIn := here.member_mem constant.isMember
  have varChild := here.shaped.child_of_var memberIn declaration constant.isVar
  have varIn := here.shaped.follows.child_mem memberIn varChild
  obtain ⟨up', rfl, visitedVar⟩ := here.path_eq (visits_ownPart_subset visited)
    (here.ne_of_holds initial (by simp [Node.kind, Form.kind])) varIn
    (child_of_init variable_ initial)
  obtain ⟨up'', rfl, _⟩ := here.path_eq visitedVar
    (here.ne_of_holds variable_ (by simp [Node.kind, Form.kind])) memberIn varChild
  have context : contextAt t (k.var :: member :: up'') = .other := by
    rw [contextAt, variable_.peek_eq]
    simp only [decidesContext, Bool.false_eq_true, if_false]
    rw [contextAt, declaration.peek_eq, contextBelow_constant constant.declares]
    rfl
  rw [context] at counts
  simp [Context.counts] at counts

theorem ClassIn.in_part (here : ClassIn t f c below pos d) {id : NodeId} (lower : t.Below c id) :
    id ∈ (Forest.cons c below .nil).ids :=
  (here.occurs.below_iff here.shaped.follows).mp lower

theorem bound_of_variable (here : ClassIn t f c below pos d) {id init : NodeId}
    {varPos : Position} {name : Text} (lower : t.Below c id)
    (held : t.Holds id ⟨varPos, .namedVar name init⟩) : name ∈ boundIn t c below d.fqn :=
  List.mem_filterMap.mpr ⟨id, here.in_part lower, by rw [held.peek_eq]; rfl⟩

theorem bound_of_foreign (here : ClassIn t f c below pos d) {id : NodeId} {idPos : Position}
    {name type : Text} {field : FieldSymbol} (lower : t.Below c id)
    (held : t.Holds id ⟨idPos, .ident name type (some field)⟩) (foreign : field.owner ≠ d.fqn) :
    name ∈ boundIn t c below d.fqn :=
  List.mem_filterMap.mpr ⟨id, here.in_part lower, by
    rw [held.peek_eq]
    simp [boundName, foreign]⟩

/-- A name is bound as often as there are nodes that bind it. -/
theorem count_boundIn (t : Tree) (c : NodeId) (below : Forest) (fqn name : Text) :
    (boundIn t c below fqn).count name = ((Forest.cons c below .nil).ids.filter
      fun id => boundName fqn (t.peek id) == some name).length := by
  rw [boundIn, List.count, List.countP_filterMap, List.countP_eq_length_filter]
  congr 1
  refine List.filter_congr fun id _ => ?_
  cases boundName fqn (t.peek id) <;> simp

/-- A name that is bound once is bound by one node. -/
theorem bound_unique_of_count {name : Text} (single : (boundIn t c below d.fqn).count name ≤ 1)
    {id other : NodeId} (here : id ∈ (Forest.cons c below .nil).ids)
    (there : other ∈ (Forest.cons c below .nil).ids)
    (bound : boundName d.fqn (t.peek id) = some name)
    (bound' : boundName d.fqn (t.peek other) = some name) : other = id := by
  let binds := fun id => boundName d.fqn (t.peek id) == some name
  have short : ((Forest.cons c below .nil).ids.filter binds).length ≤ 1 :=
    count_boundIn t c below d.fqn name ▸ single
  have first : id ∈ (Forest.cons c below .nil).ids.filter binds :=
    List.mem_filter.mpr ⟨here, by simp [binds, bound]⟩
  have second : other ∈ (Forest.cons c below .nil).ids.filter binds :=
    List.mem_filter.mpr ⟨there, by simp [binds, bound']⟩
  cases all : (Forest.cons c below .nil).ids.filter binds with
  | nil => simp [all] at first
  | cons x rest =>
      cases rest with
      | nil =>
          rw [all, List.mem_singleton] at first second
          rw [first, second]
      | cons y more => simp [all] at short

/-- What holds of the groups of a plan in the tree that they were planned for. -/
structure Fits (t : Tree) (c : NodeId) (below : Forest) (d : ClassDecl) (groups : List Group) :
    Prop where
  known : ∀ g ∈ groups, g.action = .insert ∨ g.action = .reuse ∨ g.action = .rename
  occurs : ∀ g ∈ groups, g.sites ≠ []
  literal : ∀ g ∈ groups, ∀ id ∈ g.sites, ∃ pos lit,
    t.Holds id ⟨pos, .literal lit⟩ ∧ lit.isString = true ∧ lit.value = g.value
  owned : ∀ g ∈ groups, ∀ id ∈ g.sites, t.OwnedBy c id
  apart : (groups.flatMap Group.sites).Nodup
  values : (groups.map Group.value).Nodup
  names : (groups.map Group.name).Nodup
  unbound : ∀ g ∈ groups, g.action ≠ .reuse → g.name ∉ boundIn t c below d.fqn
  reused : ∀ g ∈ groups, g.action = .reuse →
    g.name = g.oldName ∧ (boundIn t c below d.fqn).count g.name ≤ 1
  constant : ∀ g ∈ groups, g.action ≠ .insert → ∃ member init vd lit,
    IsConstant t d ⟨g.oldName, g.value, g.var⟩ member init vd lit
  initial : ∀ g ∈ groups, ∀ {k : Constant} {member init : NodeId} {vd : VarDecl} {lit : Literal},
    IsConstant t d k member init vd lit → init ∉ g.sites

theorem planning_classPlan (t : Tree) (settings : Settings) (c : NodeId) (below : Forest)
    (d : ClassDecl) :
    Planning settings (firstOfEach (declaredIn t d)) { bound := boundIn t c below d.fqn }
      (repeatedIn t settings c below) (classPlan t settings c below d).groups
      (classPlan t settings c below d).skipped :=
  planning_planGroups settings _ _ _

theorem group_of_classPlan {settings : Settings} {g : Group}
    (member : g ∈ (classPlan t settings c below d).groups) :
    (⟨g.value, g.sites⟩ : Occurrences) ∈ groupByValue (occurrencesIn t settings c below) ∧
      threshold settings ≤ g.sites.length := by
  have sublist := (planning_classPlan t settings c below d).sublist
  have found := sublist.subset (List.mem_map_of_mem member)
  simpa [repeatedIn] using found

theorem fits_classPlan (here : ClassIn t f c below pos d) (settings : Settings) :
    Fits t c below d (classPlan t settings c below d).groups := by
  have planning := planning_classPlan t settings c below d
  have occurrence : ∀ g ∈ (classPlan t settings c below d).groups, ∀ id ∈ g.sites,
      (g.value, id) ∈ occurrencesIn t settings c below := by
    intro g member id site
    exact (sites_of_mem_group (group_of_classPlan member).1).mp site
  have sublist : ((classPlan t settings c below d).groups.map fun g =>
      (⟨g.value, g.sites⟩ : Occurrences)).Sublist
      (groupByValue (occurrencesIn t settings c below)) :=
    planning.sublist.trans List.filter_sublist
  constructor
  case known =>
    intro g member
    obtain ⟨_, _, _, granted⟩ := planning.grants g member
    exact granted.known
  case occurs =>
    intro g member empty
    have enough := (group_of_classPlan member).2
    simp only [empty, threshold, List.length_nil] at enough
    omega
  case literal =>
    intro g member id site
    obtain ⟨_, pos, lit, _, held, isString, value_eq, _⟩ :=
      mem_occurrencesIn.mp (occurrence g member id site)
    exact ⟨pos, lit, held, isString, value_eq⟩
  case owned =>
    intro g member id site
    exact owned_of_occurrence here (occurrence g member id site)
  case apart =>
    have nodup := nodup_flatMap_sites (nodup_occurrencesIn here settings)
    have flat := sublist.flatMap Occurrences.sites
    rw [List.flatMap_map] at flat
    exact nodup.sublist flat
  case values =>
    have nodup : ((groupByValue (occurrencesIn t settings c below)).map
        Occurrences.value).Nodup := by
      rw [values_groupByValue]
      exact nodup_distinct _
    have mapped := sublist.map Occurrences.value
    rw [List.map_map] at mapped
    exact nodup.sublist mapped
  case names => exact planning.names.1
  case unbound =>
    intro g member new
    obtain ⟨_, _, _, granted⟩ := planning.grants g member
    exact granted.name_unbound new
  case reused =>
    intro g member reuse
    obtain ⟨_, _, _, granted⟩ := planning.grants g member
    exact granted.reused reuse
  case constant =>
    intro g member old
    obtain ⟨_, o, _, granted⟩ := planning.grants g member
    have first := granted.found old
    rw [find?_firstOfEach] at first
    exact isConstant_of_mem (List.mem_of_find?_eq_some first)
  case initial =>
    intro g member k m init vd lit constant site
    exact initial_not_occurrence here constant g.value (occurrence g member init site)

end Class

end LiteralHoist.Consolidate
