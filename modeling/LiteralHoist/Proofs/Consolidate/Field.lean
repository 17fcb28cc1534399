import LiteralHoist.Proofs.Consolidate.Edit

/-!
# Fields of a class before and after an edit

A field of a class is a variable that one of its members declares.  A name names a field if no
other field of the class has it.  An edit gives each field of the class the name of the group that
renames it, if there is one, and leaves the fields of other classes alone; a field that was named
by its name before is named by its new name afterwards, and each group names one constant.
-/

set_option autoImplicit false

namespace LiteralHoist.Consolidate

open LiteralHoist.Source

def FieldVar (t : Tree) (members : List NodeId) (name : Text) (v : NodeId) : Prop :=
  ∃ member ∈ members, ∃ pos vd, t.Holds member ⟨pos, .varDecl vd⟩ ∧ v ∈ vd.vars ∧
    ∃ pos init, t.Holds v ⟨pos, .namedVar name init⟩

/-- The members declare one variable of a name. -/
def NamesField (t : Tree) (members : List NodeId) (name : Text) (v : NodeId) : Prop :=
  FieldVar t members name v ∧ ∀ v', FieldVar t members name v' → v' = v

/-- The fields that a class declares have different names. -/
def DistinctFieldNames (t : Tree) (d : ClassDecl) : Prop :=
  ∀ {name : Text} {v v' : NodeId}, FieldVar t d.members name v → FieldVar t d.members name v' →
    v' = v

theorem IsConstant.fieldVar {t : Tree} {d : ClassDecl} {k : Constant} {member init : NodeId}
    {vd : VarDecl} {lit : Literal} (constant : IsConstant t d k member init vd lit) :
    FieldVar t d.members k.name k.var := by
  obtain ⟨declPos, declaration⟩ := constant.declaration
  obtain ⟨varPos, variable_⟩ := constant.variable_
  exact ⟨member, constant.isMember, declPos, vd, declaration, constant.isVar, varPos, init,
    variable_⟩

theorem FieldVar.name_unique {t : Tree} {members members' : List NodeId} {name name' : Text}
    {v : NodeId} (first : FieldVar t members name v) (second : FieldVar t members' name' v) :
    name = name' := by
  obtain ⟨_, _, _, _, _, _, _, _, held⟩ := first
  obtain ⟨_, _, _, _, _, _, _, _, held'⟩ := second
  exact (held.variable_unique held').2.1

/-- The variable of a constant determines its value. -/
theorem IsConstant.value_unique {t : Tree} {d d' : ClassDecl} {k k' : Constant}
    {member init member' init' : NodeId} {vd vd' : VarDecl} {lit lit' : Literal}
    (first : IsConstant t d k member init vd lit)
    (second : IsConstant t d' k' member' init' vd' lit') (same : k.var = k'.var) :
    k.value = k'.value := by
  obtain ⟨_, variable_⟩ := first.variable_
  obtain ⟨_, variable'⟩ := second.variable_
  rw [← same] at variable'
  obtain ⟨_, _, rfl⟩ := variable_.variable_unique variable'
  obtain ⟨_, initial⟩ := first.initial
  obtain ⟨_, initial'⟩ := second.initial
  obtain ⟨_, rfl⟩ := initial.literal_unique initial'
  rw [← first.value_eq, ← second.value_eq]

theorem fieldVar_append {t : Tree} {first second : List NodeId} {name : Text} {v : NodeId} :
    FieldVar t (first ++ second) name v ↔
      FieldVar t first name v ∨ FieldVar t second name v := by
  constructor
  · rintro ⟨member, place, rest⟩
    rcases List.mem_append.mp place with left | right
    · exact .inl ⟨member, left, rest⟩
    · exact .inr ⟨member, right, rest⟩
  · rintro (⟨member, place, rest⟩ | ⟨member, place, rest⟩)
    · exact ⟨member, List.mem_append_left _ place, rest⟩
    · exact ⟨member, List.mem_append_right _ place, rest⟩

section Bound
variable {t : Tree} {f below : Forest} {c : NodeId} {pos : Position} {d : ClassDecl}
  {groups : List Group}

theorem ClassIn.member_in_part (here : ClassIn t f c below pos d) {m : NodeId}
    (isMember : m ∈ d.members) : m ∈ (Forest.cons c below .nil).ids :=
  here.follows.child_mem (by simp [Forest.ids])
    (here.shaped.child_of_member here.mem here.held isMember)

theorem FieldVar.in_part (here : ClassIn t f c below pos d) {name : Text} {v : NodeId}
    (field : FieldVar t d.members name v) : v ∈ (Forest.cons c below .nil).ids := by
  obtain ⟨member, isMember, declPos, vd, declaration, isVar, _⟩ := field
  exact here.follows.child_mem (here.member_in_part isMember)
    (here.shaped.child_of_var (here.member_mem isMember) declaration isVar)

theorem FieldVar.boundName_eq {members : List NodeId} {name : Text} {v : NodeId}
    (field : FieldVar t members name v) (fqn : Text) : boundName fqn (t.peek v) = some name := by
  obtain ⟨_, _, _, _, _, _, varPos, init, variable_⟩ := field
  rw [variable_.peek_eq]
  rfl

theorem FieldVar.bound (here : ClassIn t f c below pos d) {name : Text} {v : NodeId}
    (field : FieldVar t d.members name v) : name ∈ boundIn t c below d.fqn :=
  List.mem_filterMap.mpr ⟨v, field.in_part here, field.boundName_eq d.fqn⟩

/-! ## New names of variables -/

def newName (t : Tree) (c : NodeId) (below : Forest) (fqn : Text) (groups : List Group)
    (v : NodeId) (name : Text) : Text :=
  (lastName (fun r => decide (v = r.var)) (renamingsIn t c below fqn groups)).getD name

/-- The constant of a group has the value of the group, so no two groups share it. -/
theorem Fits.var_injective (fits : Fits t c below d groups) {g g' : Group} (first : g ∈ groups)
    (second : g' ∈ groups) (old : g.action ≠ .insert) (old' : g'.action ≠ .insert)
    (same : g.var = g'.var) : g = g' := by
  obtain ⟨_, _, _, _, constant⟩ := fits.constant g first old
  obtain ⟨_, _, _, _, constant'⟩ := fits.constant g' second old'
  exact List.inj_on_of_nodup_map fits.values first second (constant.value_unique constant' same)

theorem Fits.renamed_field (fits : Fits t c below d groups) {g : Group} (inPlan : g ∈ groups)
    (isRename : g.action = .rename) : FieldVar t d.members g.oldName g.var := by
  obtain ⟨_, _, _, _, constant⟩ := fits.constant g inPlan (by simp [isRename])
  exact constant.fieldVar

theorem Fits.name_injective (fits : Fits t c below d groups) {g g' : Group} (first : g ∈ groups)
    (second : g' ∈ groups) (same : g.name = g'.name) : g = g' :=
  List.inj_on_of_nodup_map fits.names first second same

theorem newName_of_renamed (fits : Fits t c below d groups) {g : Group} (member : g ∈ groups)
    (isRename : g.action = .rename) (name : Text) :
    newName t c below d.fqn groups g.var name = g.name := by
  have given : lastName (fun r => decide (g.var = r.var)) (renamingsIn t c below d.fqn groups) =
      some g.name := by
    refine lastName_eq_some (mem_renamingsIn.mpr ⟨g, member, isRename, rfl⟩) (by simp) ?_
    intro r inList touched
    obtain ⟨g', member', isRename', rfl⟩ := mem_renamingsIn.mp inList
    have same := fits.var_injective member member' (by simp [isRename]) (by simp [isRename'])
      (by simpa using touched)
    rw [same]
  rw [newName, given, Option.getD_some]

theorem newName_of_kept {fqn : Text} {v : NodeId}
    (kept : ∀ g ∈ groups, g.action = .rename → v ≠ g.var) (name : Text) :
    newName t c below fqn groups v name = name := by
  have nothing : lastName (fun r => decide (v = r.var)) (renamingsIn t c below fqn groups) =
      none := by
    refine lastName_eq_none fun r inList => ?_
    obtain ⟨g, member, isRename, rfl⟩ := mem_renamingsIn.mp inList
    simpa using kept g member isRename
  rw [newName, nothing, Option.getD_none]

/-- A variable is renamed by one group, or keeps its name. -/
theorem newName_cases (fits : Fits t c below d groups) (v : NodeId) (name : Text) :
    (∃ g ∈ groups, g.action = .rename ∧ v = g.var ∧
        newName t c below d.fqn groups v name = g.name) ∨
      ((∀ g ∈ groups, g.action = .rename → v ≠ g.var) ∧
        newName t c below d.fqn groups v name = name) := by
  by_cases renamed : ∃ g ∈ groups, g.action = .rename ∧ v = g.var
  · obtain ⟨g, member, isRename, rfl⟩ := renamed
    exact .inl ⟨g, member, isRename, rfl, newName_of_renamed fits member isRename name⟩
  · have kept : ∀ g ∈ groups, g.action = .rename → v ≠ g.var := by simpa using renamed
    exact .inr ⟨kept, newName_of_kept kept name⟩

end Bound

/-! ## Fields after an edit -/

section Edit
variable {t t' : Tree} {f below : Forest} {c : NodeId} {pos : Position} {d : ClassDecl}
  {groups : List Group}

def isFixed (k : Kind) : Bool :=
  !bearsName k && k != .literal && k != .classDecl

theorem Edited.fixed (edited : Edited t t' c below pos d groups) (here : ClassIn t f c below pos d)
    (fits : Fits t c below d groups) {id : NodeId} {n : Node} (held : t.Holds id n)
    (isFixed' : isFixed n.kind = true) : t'.Holds id n := by
  rcases edited.old here fits held with ⟨_, rfl⟩ | ⟨_, _, _, _, _, rfl, _⟩ | ⟨_, _, kept⟩
  · simp [Node.kind, Form.kind, isFixed] at isFixed'
  · simp [Node.kind, Form.kind, isFixed] at isFixed'
  · have unnamed : bearsName n.form.kind = false := by
      simp only [isFixed, Node.kind, Bool.and_eq_true, Bool.not_eq_eq_eq_not, Bool.not_true]
        at isFixed'
      exact isFixed'.1.1
    rwa [reform, relabelAll_unnamed _ id unnamed] at kept

theorem Edited.fixed_iff (edited : Edited t t' c below pos d groups)
    (here : ClassIn t f c below pos d) (fits : Fits t c below d groups) {id : NodeId} {m n : Node}
    (held : t.Holds id m) (isFixed' : isFixed n.kind = true) : t'.Holds id n ↔ t.Holds id n := by
  constructor
  · intro held'
    obtain ⟨n', there, resembles⟩ := edited.resembles here fits held
    obtain rfl := there.unique held'
    have sameKind : n'.kind = m.kind := by
      rcases resembles.kind with same | ⟨_, second⟩
      · exact same
      · simp [second, isFixed, bearsName] at isFixed'
    have kept := edited.fixed here fits held (sameKind ▸ isFixed')
    rwa [kept.unique held'] at held
  · intro there
    exact edited.fixed here fits there isFixed'

theorem Edited.namedVar (edited : Edited t t' c below pos d groups)
    (here : ClassIn t f c below pos d) (fits : Fits t c below d groups) {v init : NodeId}
    {varPos : Position} {name : Text} (held : t.Holds v ⟨varPos, .namedVar name init⟩) :
    t'.Holds v ⟨varPos, .namedVar (newName t c below d.fqn groups v name) init⟩ := by
  rcases edited.old here fits held with ⟨_, same⟩ | ⟨_, _, _, _, _, same, _⟩ | ⟨_, _, kept⟩
  · simp at same
  · simp at same
  · rwa [reform, relabelAll_namedVar] at kept

theorem Edited.namedVar_iff (edited : Edited t t' c below pos d groups)
    (here : ClassIn t f c below pos d) (fits : Fits t c below d groups) {v init : NodeId}
    {varPos : Position} {name' : Text} {m : Node} (held : t.Holds v m) :
    t'.Holds v ⟨varPos, .namedVar name' init⟩ ↔
      ∃ name, t.Holds v ⟨varPos, .namedVar name init⟩ ∧
        name' = newName t c below d.fqn groups v name := by
  constructor
  · intro held'
    obtain ⟨n', there, resembles⟩ := edited.resembles here fits held
    obtain rfl := there.unique held'
    have isVar : m.kind = .namedVar := by
      rcases resembles.kind with same | ⟨_, second⟩
      · exact same.symm
      · simp [Node.kind, Form.kind] at second
    obtain ⟨pos', form⟩ := m
    cases form with
    | namedVar name init' =>
        obtain ⟨rfl, rfl, rfl⟩ := (edited.namedVar here fits held).variable_unique held'
        exact ⟨name, held, rfl⟩
    | _ => simp [Node.kind, Form.kind] at isVar
  · rintro ⟨name, there, rfl⟩
    exact edited.namedVar here fits there

/-- The fields that a class had, under their new names. -/
theorem Edited.fieldVar_iff (edited : Edited t t' c below pos d groups)
    (here : ClassIn t f c below pos d) (fits : Fits t c below d groups) {x : NodeId}
    {xPos : Position} {dx : ClassDecl} (inside : x ∈ f.ids)
    (held : t.Holds x ⟨xPos, .classDecl dx⟩) {name' : Text} {v : NodeId} :
    FieldVar t' dx.members name' v ↔
      ∃ name, FieldVar t dx.members name v ∧ name' = newName t c below d.fqn groups v name := by
  constructor
  · rintro ⟨member, isMember, declPos, vd, declaration', isVar, varPos, init, variable'⟩
    obtain ⟨m, memberHeld, _⟩ := here.shaped.member_holds inside held isMember
    have declaration := (edited.fixed_iff here fits memberHeld rfl).mp declaration'
    have memberIn := here.shaped.follows.child_mem inside
      (here.shaped.child_of_member inside held isMember)
    obtain ⟨_, _, _, varHeld⟩ := here.shaped.var_holds memberIn declaration isVar
    obtain ⟨name, variable_, same⟩ := (edited.namedVar_iff here fits varHeld).mp variable'
    exact ⟨name, ⟨member, isMember, declPos, vd, declaration, isVar, varPos, init, variable_⟩,
      same⟩
  · rintro ⟨name, ⟨member, isMember, declPos, vd, declaration, isVar, varPos, init, variable_⟩,
      rfl⟩
    exact ⟨member, isMember, declPos, vd, edited.fixed here fits declaration rfl, isVar, varPos,
      init, edited.namedVar here fits variable_⟩

theorem Edited.fieldVar_new (edited : Edited t t' c below pos d groups) {name : Text}
    {v : NodeId} (field : FieldVar t' (newDeclarations t groups).roots name v) :
    ∃ i g, (inserted groups)[i]? = some g ∧ name = g.name ∧ v = t.size + 3 * i + 2 := by
  obtain ⟨member, isMember, _, vd, declaration, isVar, _, init, variable_⟩ := field
  obtain ⟨i, small, rfl⟩ := mem_roots_newTrees isMember
  have place := List.getElem?_eq_getElem small
  obtain ⟨lit, _, _, declared⟩ := edited.new i _ place
  have same := declaration.unique declared.declaration
  simp only [Node.mk.injEq, Form.varDecl.injEq] at same
  obtain rfl : v = t.size + 3 * i + 2 := by simpa [same.2] using isVar
  obtain ⟨_, same_name, _⟩ := variable_.variable_unique declared.variable_
  exact ⟨i, _, place, same_name, rfl⟩

theorem Edited.fieldVar_class (edited : Edited t t' c below pos d groups)
    (here : ClassIn t f c below pos d) (fits : Fits t c below d groups) {name' : Text}
    {v : NodeId} (field : FieldVar t' (extended t d groups).members name' v) :
    (∃ name, FieldVar t d.members name v ∧ name' = newName t c below d.fqn groups v name) ∨
      ∃ i g, (inserted groups)[i]? = some g ∧ name' = g.name ∧ v = t.size + 3 * i + 2 := by
  rcases fieldVar_append.mp field with new | old
  · exact .inr (edited.fieldVar_new new)
  · exact .inl ((edited.fieldVar_iff here fits here.mem here.held).mp old)

theorem mem_of_inserted {i : Nat} {g : Group} (place : (inserted groups)[i]? = some g) :
    g ∈ groups ∧ g.action = .insert := by
  obtain ⟨inPlan, isInsert⟩ := List.mem_filter.mp (List.mem_of_getElem? place)
  exact ⟨inPlan, by simpa using isInsert⟩

/-- A name that was bound in the class is that of the fields that had it and kept it. -/
theorem Edited.fieldVar_bound (edited : Edited t t' c below pos d groups)
    (here : ClassIn t f c below pos d) (fits : Fits t c below d groups) {name : Text} {v : NodeId}
    (bound : name ∈ boundIn t c below d.fqn)
    (field : FieldVar t' (extended t d groups).members name v) : FieldVar t d.members name v := by
  have granted : ∀ g ∈ groups, g.action ≠ .reuse → name ≠ g.name := by
    rintro g member new rfl
    exact fits.unbound g member new bound
  rcases edited.fieldVar_class here fits field with ⟨old, field', same⟩ | ⟨i, g, place, same, _⟩
  · rcases newName_cases fits v old with ⟨g, member, isRename, _, given⟩ | ⟨_, kept⟩
    · exact absurd (same.trans given) (granted g member (by simp [isRename]))
    · rw [same, kept]
      exact field'
  · obtain ⟨member, isInsert⟩ := mem_of_inserted place
    exact absurd same (granted g member (by simp [isInsert]))

/-- The variable of the constant of a group: it is new, or that of a constant that was there. -/
def IsGroupVar (t : Tree) (groups : List Group) (g : Group) (v : NodeId) : Prop :=
  (∃ i, (inserted groups)[i]? = some g ∧ v = t.size + 3 * i + 2) ∨ (g.action ≠ .insert ∧ v = g.var)

theorem IsGroupVar.unique (fits : Fits t c below d groups) {g : Group} {v v' : NodeId}
    (first : IsGroupVar t groups g v) (second : IsGroupVar t groups g v') : v' = v := by
  rcases first with ⟨i, place, rfl⟩ | ⟨old, rfl⟩
  · rcases second with ⟨j, place', rfl⟩ | ⟨old, _⟩
    · have nodup : (inserted groups).Nodup := (List.Nodup.of_map _ fits.names).filter _
      obtain ⟨small, _⟩ := List.getElem?_eq_some_iff.mp place
      rw [(List.getElem?_inj small nodup).mp (place.trans place'.symm)]
    · exact absurd (mem_of_inserted place).2 old
  · rcases second with ⟨j, place', _⟩ | ⟨_, rfl⟩
    · exact absurd (mem_of_inserted place').2 old
    · rfl

/-- A node in the class is new after the edit, or it was there before. -/
theorem part_cases {id : NodeId}
    (inPart : id ∈ (Forest.cons c (below.insertAt d.annotations.length
      (newDeclarations t groups)) .nil).ids) :
    id ∈ (newDeclarations t groups).ids ∨ id ∈ (Forest.cons c below .nil).ids := by
  rw [Forest.ids_single, List.mem_cons] at inPart ⊢
  rcases inPart with rfl | inside
  · exact .inr (.inl rfl)
  · exact (List.mem_append.mp ((Forest.perm_ids_insertAt below _ _).subset inside)).imp_right .inr

/-- The variables in the class: those that were there, under their new names, and the new ones. -/
theorem Edited.variable_cases (edited : Edited t t' c below pos d groups)
    (here : ClassIn t f c below pos d) (fits : Fits t c below d groups) {id init : NodeId}
    {varPos : Position} {name' : Text}
    (inPart : id ∈ (Forest.cons c (below.insertAt d.annotations.length
      (newDeclarations t groups)) .nil).ids)
    (held' : t'.Holds id ⟨varPos, .namedVar name' init⟩) :
    (∃ name, id ∈ (Forest.cons c below .nil).ids ∧ t.Holds id ⟨varPos, .namedVar name init⟩ ∧
        name' = newName t c below d.fqn groups id name) ∨
      ∃ i g, (inserted groups)[i]? = some g ∧ name' = g.name ∧ id = t.size + 3 * i + 2 := by
  rcases part_cases inPart with fresh | old
  · obtain ⟨i, small, place⟩ := mem_newTrees fresh
    have ofGroup := List.getElem?_eq_getElem small
    obtain ⟨lit, _, _, declared⟩ := edited.new i _ ofGroup
    rcases place with rfl | rfl | rfl
    · exact absurd (held'.unique declared.declaration) (by simp)
    · obtain ⟨_, same, _⟩ := held'.variable_unique declared.variable_
      exact .inr ⟨i, _, ofGroup, same, rfl⟩
    · exact absurd (held'.unique declared.initial) (by simp)
  · obtain ⟨n, held⟩ := here.follows.holds old
    obtain ⟨name, there, same⟩ := (edited.namedVar_iff here fits held).mp held'
    exact .inl ⟨name, old, there, same⟩

/-- Of the variables in the class, that of the constant of a group alone has the group's name. -/
theorem Edited.variable_of_group (edited : Edited t t' c below pos d groups)
    (here : ClassIn t f c below pos d) (fits : Fits t c below d groups) {g : Group}
    (inPlan : g ∈ groups) {id init : NodeId} {varPos : Position}
    (inPart : id ∈ (Forest.cons c (below.insertAt d.annotations.length
      (newDeclarations t groups)) .nil).ids)
    (held' : t'.Holds id ⟨varPos, .namedVar g.name init⟩) : IsGroupVar t groups g id := by
  rcases edited.variable_cases here fits inPart held' with
    ⟨name, inside, held, same⟩ | ⟨i, g', place, same, var⟩
  · rcases newName_cases fits id name with ⟨g', inPlan', isRename, var, given⟩ | ⟨_, kept⟩
    · obtain rfl := fits.name_injective inPlan inPlan' (same.trans given)
      exact .inr ⟨by simp [isRename], var⟩
    · have bound : boundName d.fqn (t.peek id) = some g.name := by
        rw [held.peek_eq, same, kept]
        rfl
      by_cases reuse : g.action = .reuse
      · obtain ⟨name_eq, single⟩ := fits.reused g inPlan reuse
        obtain ⟨_, _, _, _, constant⟩ := fits.constant g inPlan (by simp [reuse])
        have own := constant.fieldVar.boundName_eq d.fqn
        rw [← name_eq] at own
        exact .inr ⟨by simp [reuse],
          bound_unique_of_count single (constant.fieldVar.in_part here) inside own bound⟩
      · exact absurd (List.mem_filterMap.mpr ⟨id, inside, bound⟩) (fits.unbound g inPlan reuse)
  · obtain rfl := fits.name_injective inPlan (mem_of_inserted place).1 same
    exact .inl ⟨i, place, var⟩

/-- A field that its name names is named by its new name. -/
theorem Edited.namesField (edited : Edited t t' c below pos d groups)
    (here : ClassIn t f c below pos d) (fits : Fits t c below d groups) {name : Text} {v : NodeId}
    (names : NamesField t d.members name v) :
    NamesField t' (extended t d groups).members (newName t c below d.fqn groups v name) v := by
  refine ⟨?_, fun v' field' => ?_⟩
  · refine fieldVar_append.mpr (.inr ?_)
    exact (edited.fieldVar_iff here fits here.mem here.held).mpr ⟨name, names.1, rfl⟩
  · rcases newName_cases fits v name with ⟨g, member, isRename, var, given⟩ | ⟨_, kept⟩
    · rw [given] at field'
      have inPart := field'.in_part (edited.classIn here fits)
      obtain ⟨_, _, _, _, _, _, _, _, variable'⟩ := field'
      exact IsGroupVar.unique fits (.inr ⟨by simp [isRename], var⟩)
        (edited.variable_of_group here fits member inPart variable')
    · rw [kept] at field'
      exact names.2 v' (edited.fieldVar_bound here fits (names.1.bound here) field')

/-! ## Constants after an edit -/

theorem Edited.literal_kept (edited : Edited t t' c below pos d groups)
    (here : ClassIn t f c below pos d) (fits : Fits t c below d groups) {id : NodeId}
    {litPos : Position} {lit : Literal} (held : t.Holds id ⟨litPos, .literal lit⟩)
    (outside : ∀ g ∈ groups, id ∉ g.sites) : t'.Holds id ⟨litPos, .literal lit⟩ := by
  rcases edited.old here fits held with ⟨_, same⟩ | ⟨g, member, site, _⟩ | ⟨_, _, kept⟩
  · simp at same
  · exact absurd site (outside g member)
  · rwa [reform, relabelAll_unnamed _ id rfl] at kept

theorem Edited.isConstant (edited : Edited t t' c below pos d groups)
    (here : ClassIn t f c below pos d) (fits : Fits t c below d groups) {dx dx' : ClassDecl}
    {k : Constant} {member init : NodeId} {vd : VarDecl} {lit : Literal}
    (constant : IsConstant t dx k member init vd lit) (outside : ∀ g ∈ groups, init ∉ g.sites)
    (isMember : member ∈ dx'.members) :
    IsConstant t' dx' ⟨newName t c below d.fqn groups k.var k.name, k.value, k.var⟩ member init
      vd lit := by
  obtain ⟨declPos, declaration⟩ := constant.declaration
  obtain ⟨varPos, variable_⟩ := constant.variable_
  obtain ⟨initPos, initial⟩ := constant.initial
  exact ⟨isMember, ⟨declPos, edited.fixed here fits declaration rfl⟩, constant.declares,
    constant.isVar, ⟨varPos, edited.namedVar here fits variable_⟩,
    ⟨initPos, edited.literal_kept here fits initial outside⟩, constant.isString,
    constant.value_eq⟩

theorem Edited.isConstant_class (edited : Edited t t' c below pos d groups)
    (here : ClassIn t f c below pos d) (fits : Fits t c below d groups) {k : Constant}
    {member init : NodeId} {vd : VarDecl} {lit : Literal}
    (constant : IsConstant t d k member init vd lit) :
    IsConstant t' (extended t d groups)
      ⟨newName t c below d.fqn groups k.var k.name, k.value, k.var⟩ member init vd lit :=
  edited.isConstant here fits constant (fun g inPlan => fits.initial g inPlan constant)
    (List.mem_append_right _ constant.isMember)

theorem Edited.isConstant_new (edited : Edited t t' c below pos d groups) {i : Nat} {g : Group}
    (place : (inserted groups)[i]? = some g) :
    ∃ member init vd lit,
      IsConstant t' (extended t d groups) ⟨g.name, g.value, t.size + 3 * i + 2⟩ member init vd
        lit := by
  obtain ⟨small, _⟩ := List.getElem?_eq_some_iff.mp place
  obtain ⟨lit, isString, value_eq, declared⟩ := edited.new i g place
  have isType : isStringType lit.type = true := by
    simp only [Literal.isString, Bool.and_eq_true] at isString
    exact isString.2
  have modifiers : Modifiers.includes .constant .constant = true := by decide
  exact ⟨_, _, _, lit, List.mem_append_left _ (root_newTrees small), ⟨_, declared.declaration⟩,
    by simp [declaresConstants, isType, modifiers], by simp, ⟨_, declared.variable_⟩,
    ⟨_, declared.initial⟩, isString, value_eq⟩

/-- Each group has a constant of its name and value. -/
theorem Edited.group_constant (edited : Edited t t' c below pos d groups)
    (here : ClassIn t f c below pos d) (fits : Fits t c below d groups) {g : Group}
    (inPlan : g ∈ groups) :
    ∃ v member init vd lit, IsGroupVar t groups g v ∧
      IsConstant t' (extended t d groups) ⟨g.name, g.value, v⟩ member init vd lit := by
  by_cases isInsert : g.action = .insert
  · have inserted' : g ∈ inserted groups := List.mem_filter.mpr ⟨inPlan, by simp [isInsert]⟩
    obtain ⟨i, place⟩ := List.mem_iff_getElem?.mp inserted'
    obtain ⟨member, init, vd, lit, constant⟩ := edited.isConstant_new (d := d) place
    exact ⟨_, member, init, vd, lit, .inl ⟨i, place, rfl⟩, constant⟩
  · obtain ⟨member, init, vd, lit, constant⟩ := fits.constant g inPlan isInsert
    have given : newName t c below d.fqn groups g.var g.oldName = g.name := by
      rcases newName_cases fits g.var g.oldName with
        ⟨g', inPlan', isRename, var, given⟩ | ⟨unnamed, kept⟩
      · rw [given, fits.var_injective inPlan inPlan' isInsert (by simp [isRename]) var]
      · rcases fits.known g inPlan with new | isReuse | isRename
        · exact absurd new isInsert
        · rw [kept, (fits.reused g inPlan isReuse).1]
        · exact absurd rfl (unnamed g inPlan isRename)
    have constant' := edited.isConstant_class here fits constant
    simp only [given] at constant'
    exact ⟨g.var, member, init, vd, lit, .inr ⟨isInsert, rfl⟩, constant'⟩

/-- Each group names one constant of its value. -/
theorem Edited.group_names (edited : Edited t t' c below pos d groups)
    (here : ClassIn t f c below pos d) (fits : Fits t c below d groups) {g : Group}
    (inPlan : g ∈ groups) :
    ∃ v member init vd lit, NamesField t' (extended t d groups).members g.name v ∧
      IsConstant t' (extended t d groups) ⟨g.name, g.value, v⟩ member init vd lit := by
  obtain ⟨v, member, init, vd, lit, isVar, constant⟩ := edited.group_constant here fits inPlan
  refine ⟨v, member, init, vd, lit, ⟨constant.fieldVar, fun v' field => ?_⟩, constant⟩
  have inPart := field.in_part (edited.classIn here fits)
  obtain ⟨_, _, _, _, _, _, _, _, variable'⟩ := field
  exact isVar.unique fits (edited.variable_of_group here fits inPlan inPart variable')

end Edit

end LiteralHoist.Consolidate
