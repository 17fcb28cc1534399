import LiteralHoist.Proofs.Consolidate.Rename
import LiteralHoist.Proofs.Consolidate.Replace
import LiteralHoist.Proofs.Source.Graft

/-!
# Carrying out the plan of a class

`Edited` says what the tree holds after the plan of a class was carried out: the class has the new
declarations at the top of its members, occurrences are references, and every other node is as
before up to the renamings.  A plan that fits is always carried out, and the tree keeps its shape:
its forest has the trees of the new declarations below the class.
-/

set_option autoImplicit false

namespace LiteralHoist.Consolidate

open LiteralHoist.Source

def renamingIn (t : Tree) (c : NodeId) (below : Forest) (fqn : Text) (g : Group) :
    List Renaming :=
  if g.action = .rename then
    [⟨g.name, g.var, (Forest.cons c below .nil).ids.filter fun id =>
      refersTo fqn g.oldName (t.peek id)⟩]
  else []

def renamingsIn (t : Tree) (c : NodeId) (below : Forest) (fqn : Text) (groups : List Group) :
    List Renaming :=
  groups.flatMap (renamingIn t c below fqn)

def newDeclarations (t : Tree) (groups : List Group) : Forest :=
  newTrees t.size (inserted groups).length

def extended (t : Tree) (d : ClassDecl) (groups : List Group) : ClassDecl :=
  { d with members := (newDeclarations t groups).roots ++ d.members }

/-- The plan of a class is carried out. -/
structure Edited (t t' : Tree) (c : NodeId) (below : Forest) (pos : Position) (d : ClassDecl)
    (groups : List Group) : Prop where
  root_eq : t'.root = t.root
  size_eq : t'.size = t.size + 3 * (inserted groups).length
  class_ : t'.Holds c ⟨pos, .classDecl (extended t d groups)⟩
  site : ∀ g ∈ groups, ∀ id ∈ g.sites, ∀ pos lit, t.Holds id ⟨pos, .literal lit⟩ →
    RefersFrom t' d.fqn g.name id pos lit
  kept : ∀ id n, t.Holds id n → id ≠ c → (∀ g ∈ groups, id ∉ g.sites) →
    t'.Holds id (reform (relabelAll (renamingsIn t c below d.fqn groups)) id n)
  new : ∀ i g, (inserted groups)[i]? = some g →
    ∃ lit, lit.isString = true ∧ lit.value = g.value ∧ DeclaredAt t' g.name lit (t.size + 3 * i)

section Class
variable {t t' : Tree} {f below : Forest} {c : NodeId} {pos : Position} {d : ClassDecl}
  {groups : List Group}

theorem mem_renamingsIn {fqn : Text} {r : Renaming} :
    r ∈ renamingsIn t c below fqn groups ↔
      ∃ g ∈ groups, g.action = .rename ∧ r = ⟨g.name, g.var,
        (Forest.cons c below .nil).ids.filter fun id => refersTo fqn g.oldName (t.peek id)⟩ := by
  constructor
  · intro member
    obtain ⟨g, inPlan, asked⟩ := List.mem_flatMap.mp member
    unfold renamingIn at asked
    split at asked
    · rename_i isRename
      exact ⟨g, inPlan, isRename, by simpa using asked⟩
    · simp at asked
  · rintro ⟨g, inPlan, isRename, rfl⟩
    exact List.mem_flatMap.mpr ⟨g, inPlan, by simp [renamingIn, isRename]⟩

theorem renamingOf_eq (here : ClassIn t f c below pos d) {p : Plan} (classId : p.classId = c)
    (fqn : p.fqn = d.fqn) {g : Group}
    (known : g.action = .insert ∨ g.action = .reuse ∨ g.action = .rename) :
    renamingOf t p g = .ok (renamingIn t c below d.fqn g) := by
  rcases known with action | action | action
  · simp [renamingOf, renamingIn, action, pure_eq_ok]
  · simp [renamingOf, renamingIn, action, pure_eq_ok]
  · simp [renamingOf, renamingIn, action, pure_eq_ok, classId, fqn, references_eq here, ok_bind]

/-- The last step writes the class, also where it has no new declarations. -/
theorem prependMembers_revises {u : Tree} (held : u.Holds c ⟨pos, .classDecl d⟩)
    (decls : List NodeId) :
    ∃ w, (if decls.isEmpty then pure u else prependMembers u c decls) = .ok w ∧
      u.Revises w fun id n =>
        if id = c then ⟨pos, .classDecl { d with members := decls ++ d.members }⟩ else n := by
  cases decls with
  | nil =>
      refine ⟨u, rfl, (Tree.Revises.refl u).congr fun id n there => ?_⟩
      by_cases same : id = c
      · subst same
        rw [if_pos rfl, there.unique held]
        rfl
      · rw [if_neg same]
  | cons first rest =>
      obtain ⟨w, set, change⟩ := Tree.set_of_holds held
        ⟨pos, .classDecl { d with members := first :: rest ++ d.members }⟩
      refine ⟨w, ?_, change⟩
      simp only [List.isEmpty_cons, Bool.false_eq_true, if_false, prependMembers, held.node?_eq,
        ok_bind]
      exact set

theorem Fits.class_not_site (here : ClassIn t f c below pos d) (fits : Fits t c below d groups) :
    ∀ g ∈ groups, c ∉ g.sites := by
  intro g member site
  obtain ⟨_, _, held, _⟩ := fits.literal g member c site
  exact here.ne_of_holds held (by simp [Node.kind, Form.kind]) rfl

theorem Fits.renamings_revise (here : ClassIn t f c below pos d)
    (fits : Fits t c below d groups) :
    ∃ u, (renamingsIn t c below d.fqn groups).foldlM carryOutRenaming t = .ok u ∧
      t.Revises u (reform (relabelAll (renamingsIn t c below d.fqn groups))) := by
  refine Consolidate.renamings_revise (fun r member => ?_) fun r member id isRef => ?_
  · obtain ⟨g, inPlan, isRename, rfl⟩ := mem_renamingsIn.mp member
    obtain ⟨_, init, _, _, constant⟩ := fits.constant g inPlan (by simp [isRename])
    obtain ⟨varPos, held⟩ := constant.variable_
    exact ⟨varPos, g.oldName, init, held⟩
  · obtain ⟨g, inPlan, isRename, rfl⟩ := mem_renamingsIn.mp member
    exact here.follows.holds (List.mem_filter.mp isRef).1

theorem holds_of_unnamed {u : Tree} {rs : List Renaming}
    (revision : t.Revises u (reform (relabelAll rs))) {id : NodeId} {n : Node}
    (held : t.Holds id n) (unnamed : bearsName n.form.kind = false) : u.Holds id n := by
  have held' := revision.holds held
  rwa [reform, relabelAll_unnamed rs id unnamed] at held'

/-- The three steps of an edit, one after the other. -/
theorem edited_of_steps {u v w : Tree} (here : ClassIn t f c below pos d)
    (fits : Fits t c below d groups)
    (revision : t.Revises u (reform (relabelAll (renamingsIn t c below d.fqn groups))))
    (replaced : Replaces u v d.fqn groups)
    (written : v.Revises w fun id n =>
      if id = c then ⟨pos, .classDecl (extended t d groups)⟩ else n) :
    Edited t w c below pos d groups := by
  have notSite := fits.class_not_site here
  refine ⟨?_, ?_, ?_, ?_, ?_, ?_⟩
  · rw [written.root_eq, replaced.root_eq, revision.root_eq]
  · rw [written.size_eq, replaced.size_eq, revision.size_eq]
  · have held := written.holds
      (replaced.kept c _ (holds_of_unnamed revision here.held rfl) notSite)
    rwa [if_pos rfl] at held
  · intro g member id site pos' lit held
    obtain ⟨field, heldV, owner, name⟩ :=
      replaced.site g member id site pos' lit (holds_of_unnamed revision held rfl)
    have heldW := written.holds heldV
    rw [if_neg (by rintro rfl; exact notSite g member site)] at heldW
    exact ⟨field, heldW, owner, name⟩
  · intro id n held other outside
    have heldW := written.holds (replaced.kept id _ (revision.holds held) outside)
    rwa [if_neg other] at heldW
  · intro i g place
    obtain ⟨lit, isString, value_eq, declared⟩ := replaced.new i g place
    rw [revision.size_eq] at declared
    refine ⟨lit, isString, value_eq, declared.keeps fun id n beyond held => ?_⟩
    have heldW := written.holds held
    have inside := here.held.le_size
    rwa [if_neg (by rintro rfl; exact absurd inside (by omega))] at heldW

theorem applyPlan_counted_of_ne_nil (here : ClassIn t f c below pos d)
    (fits : Fits t c below d groups) {p : Plan} (classId : p.classId = c) (fqn : p.fqn = d.fqn)
    (groups_eq : p.groups = groups) (some_group : groups ≠ []) :
    ∃ t', applyPlan t p = .ok (t', statsOf groups (renamingsIn t c below d.fqn groups)) ∧
      Edited t t' c below pos d groups := by
  have located : groups.mapM (renamingOf t p) =
      .ok (groups.map (renamingIn t c below d.fqn)) :=
    mapM_eq_ok _ _ _ fun g member => renamingOf_eq here classId fqn (fits.known g member)
  obtain ⟨u, renamed, revision⟩ := fits.renamings_revise here
  have literal : ∀ g ∈ groups, SitesHold u g := by
    intro g member id site
    obtain ⟨pos', lit, held, isString, value_eq⟩ := fits.literal g member id site
    exact ⟨pos', lit, holds_of_unnamed revision held rfl, isString, value_eq⟩
  obtain ⟨v, carried, replaced⟩ := carryOutGroups_replaces d.fqn groups fits.occurs literal
    fits.apart
  have classV := replaced.kept c _ (holds_of_unnamed revision here.held rfl)
    (fits.class_not_site here)
  rw [revision.size_eq] at carried
  obtain ⟨w, last, written⟩ := prependMembers_revises classV (newDeclarations t groups).roots
  refine ⟨w, ?_, edited_of_steps here fits revision replaced written⟩
  have nonempty : p.isEmpty = false := by simpa [Plan.isEmpty, groups_eq] using some_group
  rw [applyPlan, nonempty]
  simp only [Bool.false_eq_true, if_false, classId, classAt_eq here.held, ok_bind, groups_eq,
    located, ← List.flatMap_def]
  rw [show groups.flatMap (renamingIn t c below d.fqn) =
    renamingsIn t c below d.fqn groups from rfl, renamed, ok_bind, fqn, carried, ok_bind]
  revert last
  rw [newDeclarations]
  cases (newTrees t.size (inserted groups).length).roots.isEmpty with
  | true =>
      intro last
      obtain rfl : v = w := Except.ok.inj last
      rfl
  | false =>
      intro last
      simp only [Bool.false_eq_true, if_false] at last ⊢
      rw [last, ok_bind]
      rfl

theorem applyPlan_of_nil {p : Plan} (empty : p.groups = []) : applyPlan t p = .ok (t, {}) := by
  simp [applyPlan, Plan.isEmpty, empty, pure_eq_ok]

theorem Edited.refl (here : ClassIn t f c below pos d) : Edited t t c below pos d [] where
  root_eq := rfl
  size_eq := rfl
  class_ := by simpa [extended, newDeclarations, newTrees, Forest.roots] using here.held
  site := by simp
  kept _ _ held _ _ := held
  new := by simp [inserted]

theorem applyPlan_counted (here : ClassIn t f c below pos d) (fits : Fits t c below d groups)
    {p : Plan} (classId : p.classId = c) (fqn : p.fqn = d.fqn) (groups_eq : p.groups = groups) :
    ∃ t', applyPlan t p = .ok (t', statsOf groups (renamingsIn t c below d.fqn groups)) ∧
      Edited t t' c below pos d groups := by
  by_cases empty : groups = []
  · subst empty
    exact ⟨t, applyPlan_of_nil groups_eq, .refl here⟩
  · exact applyPlan_counted_of_ne_nil here fits classId fqn groups_eq empty

theorem applyPlan_edited (here : ClassIn t f c below pos d) (fits : Fits t c below d groups)
    {p : Plan} (classId : p.classId = c) (fqn : p.fqn = d.fqn) (groups_eq : p.groups = groups) :
    ∃ t' stats, applyPlan t p = .ok (t', stats) ∧ Edited t t' c below pos d groups := by
  obtain ⟨t', applied, edited⟩ := applyPlan_counted here fits classId fqn groups_eq
  exact ⟨t', _, applied, edited⟩

end Class

/-! ## What an edit keeps -/

/-- A node in the place of another that plays the same part: it is of the same kind, or a reference
in the place of a literal. -/
structure Resembles (n n' : Node) : Prop where
  kind : n'.kind = n.kind ∨ n.kind = .literal ∧ n'.kind = .ident
  mentionedType : n'.form.mentionedType = n.form.mentionedType
  decides : decidesContext (some n') = decidesContext (some n)
  context : contextBelow (some n') = contextBelow (some n)

theorem resembles_relabelAll (rs : List Renaming) (id : NodeId) (n : Node) :
    Resembles n (reform (relabelAll rs) id n) where
  kind := .inl (relabelAll_kind rs id n.form)
  mentionedType := relabelAll_mentionedType rs id n.form
  decides := relabelAll_keeps (fun f => decidesContext (some ⟨n.pos, f⟩))
    (fun _ f => by cases f <;> rfl) (fun _ f => by cases f <;> rfl) rs id n.form
  context := relabelAll_keeps (fun f => contextBelow (some ⟨n.pos, f⟩))
    (fun _ f => by cases f <;> rfl) (fun _ f => by cases f <;> rfl) rs id n.form

section Shape
variable {t t' : Tree} {f below : Forest} {c : NodeId} {pos : Position} {d : ClassDecl}
  {groups : List Group}

/-- What becomes of a node: it is the class, an occurrence, or kept up to the renamings. -/
theorem Edited.old (edited : Edited t t' c below pos d groups) (here : ClassIn t f c below pos d)
    (fits : Fits t c below d groups) {id : NodeId} {n : Node} (held : t.Holds id n) :
    (id = c ∧ n = ⟨pos, .classDecl d⟩) ∨
      (∃ g ∈ groups, id ∈ g.sites ∧ ∃ pos lit, n = ⟨pos, .literal lit⟩ ∧
        RefersFrom t' d.fqn g.name id pos lit) ∨
      (id ≠ c ∧ (∀ g ∈ groups, id ∉ g.sites) ∧
        t'.Holds id (reform (relabelAll (renamingsIn t c below d.fqn groups)) id n)) := by
  by_cases same : id = c
  · subst same
    exact .inl ⟨rfl, held.unique here.held⟩
  by_cases site : ∃ g ∈ groups, id ∈ g.sites
  · obtain ⟨g, member, isSite⟩ := site
    obtain ⟨pos', lit, literal, _⟩ := fits.literal g member id isSite
    exact .inr (.inl ⟨g, member, isSite, pos', lit, held.unique literal,
      edited.site g member id isSite pos' lit literal⟩)
  · have outside : ∀ g ∈ groups, id ∉ g.sites := by simpa using site
    exact .inr (.inr ⟨same, outside, edited.kept id n held same outside⟩)

theorem Edited.resembles (edited : Edited t t' c below pos d groups)
    (here : ClassIn t f c below pos d) (fits : Fits t c below d groups) {id : NodeId} {n : Node}
    (held : t.Holds id n) : ∃ n', t'.Holds id n' ∧ Resembles n n' := by
  rcases edited.old here fits held with
    ⟨rfl, rfl⟩ | ⟨_, _, _, _, lit, rfl, field, reference, _⟩ | ⟨_, _, kept⟩
  · exact ⟨_, edited.class_, .inl rfl, rfl, rfl, rfl⟩
  · exact ⟨_, reference, .inr ⟨rfl, rfl⟩, rfl, rfl, rfl⟩
  · exact ⟨_, kept, resembles_relabelAll _ id n⟩

theorem Edited.same_children (edited : Edited t t' c below pos d groups)
    (here : ClassIn t f c below pos d) (fits : Fits t c below d groups) {id : NodeId} {n : Node}
    (held : t.Holds id n) (other : id ≠ c) :
    ∃ n', t'.Holds id n' ∧ n'.form.children = n.form.children := by
  rcases edited.old here fits held with
    ⟨same, _⟩ | ⟨_, _, _, _, lit, rfl, field, reference, _⟩ | ⟨_, _, kept⟩
  · exact absurd same other
  · exact ⟨_, reference, rfl⟩
  · exact ⟨_, kept, relabelAll_children _ id n.form⟩

theorem Edited.same_demands (edited : Edited t t' c below pos d groups)
    (here : ClassIn t f c below pos d) (fits : Fits t c below d groups) {id : NodeId} {n : Node}
    (held : t.Holds id n) (other : id ≠ c) :
    ∃ n', t'.Holds id n' ∧ n'.form.demands = n.form.demands := by
  rcases edited.old here fits held with
    ⟨same, _⟩ | ⟨_, _, _, _, lit, rfl, field, reference, _⟩ | ⟨_, _, kept⟩
  · exact absurd same other
  · exact ⟨_, reference, rfl⟩
  · exact ⟨_, kept, relabelAll_demands _ id n.form⟩

theorem Edited.isClass_iff (edited : Edited t t' c below pos d groups)
    (here : ClassIn t f c below pos d) (fits : Fits t c below d groups) {id : NodeId} {n : Node}
    (held : t.Holds id n) : t'.IsClass id ↔ t.IsClass id := by
  have byKind : ∀ {u : Tree} {m : Node}, u.Holds id m → (u.IsClass id ↔ m.kind = .classDecl) := by
    rintro u ⟨pos', form⟩ there
    constructor
    · rintro ⟨pos'', decl, isClass⟩
      rw [there.unique isClass]
      rfl
    · intro kind
      cases form with
      | classDecl decl => exact ⟨pos', decl, there⟩
      | _ => simp [Node.kind, Form.kind] at kind
  obtain ⟨n', held', resembles⟩ := edited.resembles here fits held
  rw [byKind held, byKind held']
  rcases resembles.kind with same | ⟨first, second⟩
  · rw [same]
  · simp [first, second]

/-! ## The shape after an edit -/

def editedForest (t : Tree) (f : Forest) (c : NodeId) (d : ClassDecl) (groups : List Group) :
    Forest :=
  f.graft c d.annotations.length (newDeclarations t groups)

theorem ident_allowed {form : Form} {demand : Demand} (asked : demand ∈ form.demands)
    (literal : Kind.literal ∈ demand.allowed) : Kind.ident ∈ demand.allowed := by
  have expressions : Kind.ident ∈ Kind.expressions := by decide
  have arguments : Kind.ident ∈ Kind.arguments := by decide
  have members : Kind.literal ∉ Kind.members := by decide
  have statements : Kind.literal ∉ Kind.statements := by decide
  cases form <;>
    simp only [Form.demands, List.mem_append, List.mem_map, List.mem_cons, List.not_mem_nil,
      or_false] at asked <;>
    grind [Demand.must, Demand.may]

theorem Edited.met (edited : Edited t t' c below pos d groups) (here : ClassIn t f c below pos d)
    (fits : Fits t c below d groups) {form : Form} {demand : Demand}
    (asked : demand ∈ form.demands) (met : demand.Met t) : demand.Met t' := by
  rcases met with empty | ⟨n, held, allowed⟩
  · exact .inl empty
  · obtain ⟨n', held', resembles⟩ := edited.resembles here fits held
    refine .inr ⟨n', held', ?_⟩
    rcases resembles.kind with same | ⟨first, second⟩
    · rwa [same]
    · rw [second]
      exact ident_allowed asked (first ▸ allowed)

theorem Edited.declared (edited : Edited t t' c below pos d groups) {i : Nat}
    (small : i < (inserted groups).length) :
    ∃ g ∈ groups, g.action = .insert ∧ ∃ lit : Literal, lit.isString = true ∧
      lit.value = g.value ∧ DeclaredAt t' g.name lit (t.size + 3 * i) := by
  have place := List.getElem?_eq_getElem small
  obtain ⟨inPlan, isInsert⟩ := List.mem_filter.mp (List.getElem_mem small)
  exact ⟨_, inPlan, by simpa using isInsert, edited.new i _ place⟩

theorem Edited.kind_new (edited : Edited t t' c below pos d groups) {id : NodeId}
    (fresh : id ∈ (newDeclarations t groups).ids) {n : Node} (held : t'.Holds id n) :
    n.kind = .varDecl ∨ n.kind = .namedVar ∨ n.kind = .literal := by
  obtain ⟨i, small, place⟩ := mem_newTrees fresh
  obtain ⟨g, _, _, lit, _, _, declared⟩ := edited.declared small
  rcases place with rfl | rfl | rfl
  · exact .inl (held.unique declared.declaration ▸ rfl)
  · exact .inr (.inl (held.unique declared.variable_ ▸ rfl))
  · exact .inr (.inr (held.unique declared.initial ▸ rfl))

theorem children_extended (here : ClassIn t f c below pos d) (groups : List Group) :
    (Form.classDecl (extended t d groups)).children =
      d.annotations ++ ((newDeclarations t groups).roots ++ d.members) := by
  rw [Form.children, Form.places, extended, List.filter_eq_self]
  intro (x : Nat) place
  simp only [List.mem_append] at place
  rcases place with attached | fresh | isMember
  · obtain ⟨n, held, _⟩ := here.shaped.annotation_holds here.mem here.held attached
    simpa using held.ne_zero
  · have beyond := lt_of_mem_newTrees (Forest.roots_subset_ids _ fresh)
    simpa using Nat.ne_of_gt (Nat.zero_lt_of_lt beyond)
  · obtain ⟨n, held, _⟩ := here.shaped.member_holds here.mem here.held isMember
    simpa using held.ne_zero

theorem Edited.follows (edited : Edited t t' c below pos d groups)
    (here : ClassIn t f c below pos d) (fits : Fits t c below d groups) :
    (editedForest t f c d groups).Follows t' := by
  have new : (newDeclarations t groups).Follows t' := follows_newTrees fun i small => by
    obtain ⟨g, _, _, lit, _, _, declared⟩ := edited.declared small
    exact ⟨g.name, lit, declared⟩
  refine here.shaped.follows.graft here.shaped.nodup new
    (fun id _ other n held => edited.same_children here fits held other) fun n held => ?_
  refine ⟨_, edited.class_, ?_⟩
  rw [held.unique here.held, here.shaped.class_children here.mem here.held,
    children_extended here groups, List.take_left, List.drop_left]

theorem perm_ids_editedForest (here : ClassIn t f c below pos d) (groups : List Group) :
    (editedForest t f c d groups).ids.Perm ((newDeclarations t groups).ids ++ f.ids) :=
  Forest.perm_ids_graft here.mem here.shaped.nodup

theorem nodup_editedForest (here : ClassIn t f c below pos d) (groups : List Group) :
    (editedForest t f c d groups).ids.Nodup := by
  rw [(perm_ids_editedForest here groups).nodup_iff, List.nodup_append]
  refine ⟨nodup_newTrees _ _, here.shaped.nodup, ?_⟩
  rintro (a : Nat) fresh b old rfl
  obtain ⟨n, held⟩ := here.shaped.follows.holds old
  have beyond := lt_of_mem_newTrees fresh
  have inside := held.le_size
  omega

theorem Edited.admits_new (edited : Edited t t' c below pos d groups) {id : NodeId}
    (fresh : id ∈ (newDeclarations t groups).ids) {n : Node} (held : t'.Holds id n) :
    n.form.Admits t' := by
  obtain ⟨i, small, place⟩ := mem_newTrees fresh
  obtain ⟨g, _, _, lit, _, _, declared⟩ := edited.declared small
  rcases place with rfl | rfl | rfl
  · rw [held.unique declared.declaration]
    intro demand asked
    obtain rfl : demand = .must [.namedVar] (t.size + 3 * i + 2) := by
      simpa [Form.demands] using asked
    exact .inr ⟨_, declared.variable_, by simp [Node.kind, Form.kind, Demand.must]⟩
  · rw [held.unique declared.variable_]
    intro demand asked
    obtain rfl : demand = .may Kind.expressions (t.size + 3 * i + 1) := by
      simpa [Form.demands] using asked
    exact .inr ⟨_, declared.initial, by simp [Node.kind, Form.kind, Demand.may, Kind.expressions]⟩
  · rw [held.unique declared.initial]
    intro demand asked
    simp [Form.demands] at asked

theorem Edited.admits_class (edited : Edited t t' c below pos d groups)
    (here : ClassIn t f c below pos d) (fits : Fits t c below d groups) :
    (Form.classDecl (extended t d groups)).Admits t' := by
  intro demand asked
  have old := here.shaped.admits c here.mem _ here.held
  by_cases known : demand ∈ (Form.classDecl d).demands
  · exact edited.met here fits known (old demand known)
  · simp only [Form.demands, extended, List.map_append, List.mem_append, List.mem_map]
      at asked known
    obtain ⟨m, isRoot, rfl⟩ : ∃ m ∈ (newDeclarations t groups).roots,
        Demand.must Kind.members m = demand := by
      rcases asked with attached | fresh | isMember
      · exact absurd (.inl attached) known
      · exact fresh
      · exact absurd (.inr isMember) known
    obtain ⟨i, small, rfl⟩ := mem_roots_newTrees isRoot
    obtain ⟨g, _, _, lit, _, _, declared⟩ := edited.declared small
    exact .inr ⟨_, declared.declaration, by simp [Node.kind, Form.kind, Demand.must, Kind.members]⟩

theorem Edited.shaped (edited : Edited t t' c below pos d groups)
    (here : ClassIn t f c below pos d) (fits : Fits t c below d groups) :
    Shaped t' (editedForest t f c d groups) where
  roots_eq := by rw [editedForest, Forest.roots_graft, here.shaped.roots_eq, edited.root_eq]
  follows := edited.follows here fits
  nodup := nodup_editedForest here groups
  admits := by
    intro id member n' held'
    rcases List.mem_append.mp ((perm_ids_editedForest here groups).subset member) with fresh | old
    · exact edited.admits_new fresh held'
    · by_cases same : id = c
      · subst same
        rw [held'.unique edited.class_]
        exact edited.admits_class here fits
      · obtain ⟨n, held⟩ := here.shaped.follows.holds old
        obtain ⟨m, there, demands⟩ := edited.same_demands here fits held same
        rw [held'.unique there]
        intro demand asked
        rw [demands] at asked
        exact edited.met here fits asked (here.shaped.admits id old n held demand asked)

theorem Edited.classIn (edited : Edited t t' c below pos d groups)
    (here : ClassIn t f c below pos d) (fits : Fits t c below d groups) :
    ClassIn t' (editedForest t f c d groups) c
      (below.insertAt d.annotations.length (newDeclarations t groups)) pos
      (extended t d groups) where
  shaped := edited.shaped here fits
  occurs := here.occurs.graft_self here.shaped.nodup
  held := edited.class_

end Shape

end LiteralHoist.Consolidate
