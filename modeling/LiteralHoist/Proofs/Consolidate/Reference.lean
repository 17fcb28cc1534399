import LiteralHoist.Proofs.Consolidate.Field

/-!
# References to fields before and after an edit

The edit of a class leaves the fields of every other class alone.  A reference in the class to a
field that its name names follows the field to its new name; a reference outside the class, or to
a field of a class of another name, stays as it is.
-/

set_option autoImplicit false

namespace LiteralHoist.Consolidate

open LiteralHoist.Source

section OtherClass
variable {t t' : Tree} {f below : Forest} {c : NodeId} {pos : Position} {d : ClassDecl}
  {groups : List Group} {x : NodeId} {xPos : Position} {dx : ClassDecl}

theorem FieldVar.class_unique (here : ClassIn t f c below pos d) (inside : x ∈ f.ids)
    (held : t.Holds x ⟨xPos, .classDecl dx⟩) {name name' : Text} {v : NodeId}
    (first : FieldVar t d.members name v) (second : FieldVar t dx.members name' v) : x = c := by
  obtain ⟨m, isMember, _, vd, declaration, isVar, _⟩ := first
  obtain ⟨m', isMember', _, vd', declaration', isVar', _⟩ := second
  have child := here.shaped.child_of_member here.mem here.held isMember
  have child' := here.shaped.child_of_member inside held isMember'
  have memberIn := here.shaped.follows.child_mem here.mem child
  have memberIn' := here.shaped.follows.child_mem inside child'
  obtain rfl := Forest.parent_unique here.shaped.follows here.shaped.nodup memberIn memberIn'
    (here.shaped.child_of_var memberIn declaration isVar)
    (here.shaped.child_of_var memberIn' declaration' isVar')
  exact Forest.parent_unique here.shaped.follows here.shaped.nodup inside here.mem child' child

theorem not_isClass_of_holds {id : NodeId} {n : Node} (held : t.Holds id n)
    (other : n.kind ≠ .classDecl) : ¬ t.IsClass id := by
  rintro ⟨pos', decl, isClass⟩
  rw [held.unique isClass] at other
  exact other rfl

/-- The initial value of a constant belongs to the class of the constant. -/
theorem IsConstant.owned (shaped : Shaped t f) (inside : x ∈ f.ids)
    (held : t.Holds x ⟨xPos, .classDecl dx⟩) {k : Constant} {member init : NodeId} {vd : VarDecl}
    {lit : Literal} (constant : IsConstant t dx k member init vd lit) : t.OwnedBy x init := by
  obtain ⟨_, declaration⟩ := constant.declaration
  obtain ⟨_, variable_⟩ := constant.variable_
  obtain ⟨_, initial⟩ := constant.initial
  have child := shaped.child_of_member inside held constant.isMember
  have memberIn := shaped.follows.child_mem inside child
  have first : t.OwnedBy x member := .direct child
  have second : t.OwnedBy x k.var :=
    .deeper first (not_isClass_of_holds declaration (by simp [Node.kind, Form.kind]))
      (shaped.child_of_var memberIn declaration constant.isVar)
  exact .deeper second (not_isClass_of_holds variable_ (by simp [Node.kind, Form.kind]))
    (child_of_init variable_ initial)

theorem Fits.not_site_of_other (here : ClassIn t f c below pos d)
    (fits : Fits t c below d groups) (inside : x ∈ f.ids)
    (held : t.Holds x ⟨xPos, .classDecl dx⟩) (other : x ≠ c) {id : NodeId}
    (owned : t.OwnedBy x id) : ∀ g ∈ groups, id ∉ g.sites := by
  intro g inPlan site
  exact other (here.shaped.owner_unique inside here.mem ⟨xPos, dx, held⟩ here.isClass owned
    (fits.owned g inPlan id site))

theorem newName_of_other (here : ClassIn t f c below pos d) (fits : Fits t c below d groups)
    (inside : x ∈ f.ids) (held : t.Holds x ⟨xPos, .classDecl dx⟩) (other : x ≠ c) {name : Text}
    {v : NodeId} (field : FieldVar t dx.members name v) (old : Text) :
    newName t c below d.fqn groups v old = old := by
  refine newName_of_kept (fun g inPlan isRename var => ?_) old
  have renamed : FieldVar t d.members g.oldName v := var ▸ fits.renamed_field inPlan isRename
  exact other (renamed.class_unique here inside held field)

theorem Edited.fieldVar_other (edited : Edited t t' c below pos d groups)
    (here : ClassIn t f c below pos d) (fits : Fits t c below d groups) (inside : x ∈ f.ids)
    (held : t.Holds x ⟨xPos, .classDecl dx⟩) (other : x ≠ c) {name : Text} {v : NodeId} :
    FieldVar t' dx.members name v ↔ FieldVar t dx.members name v := by
  rw [edited.fieldVar_iff here fits inside held]
  constructor
  · rintro ⟨old, field, rfl⟩
    rwa [newName_of_other here fits inside held other field]
  · intro field
    exact ⟨name, field, (newName_of_other here fits inside held other field name).symm⟩

theorem Edited.namesField_other (edited : Edited t t' c below pos d groups)
    (here : ClassIn t f c below pos d) (fits : Fits t c below d groups) (inside : x ∈ f.ids)
    (held : t.Holds x ⟨xPos, .classDecl dx⟩) (other : x ≠ c) {name : Text} {v : NodeId} :
    NamesField t' dx.members name v ↔ NamesField t dx.members name v := by
  simp only [NamesField, edited.fieldVar_other here fits inside held other]

theorem Edited.isConstant_other (edited : Edited t t' c below pos d groups)
    (here : ClassIn t f c below pos d) (fits : Fits t c below d groups) (inside : x ∈ f.ids)
    (held : t.Holds x ⟨xPos, .classDecl dx⟩) (other : x ≠ c) {k : Constant} {member init : NodeId}
    {vd : VarDecl} {lit : Literal} (constant : IsConstant t dx k member init vd lit) :
    IsConstant t' dx k member init vd lit := by
  have outside := fits.not_site_of_other here inside held other
    (constant.owned here.shaped inside held)
  have after := edited.isConstant here fits constant outside constant.isMember
  rwa [newName_of_other here fits inside held other constant.fieldVar] at after

theorem Edited.class_other (edited : Edited t t' c below pos d groups)
    (here : ClassIn t f c below pos d) (fits : Fits t c below d groups)
    (held : t.Holds x ⟨xPos, .classDecl dx⟩) (other : x ≠ c) :
    t'.Holds x ⟨xPos, .classDecl dx⟩ := by
  rcases edited.old here fits held with ⟨same, _⟩ | ⟨_, _, _, _, _, same, _⟩ | ⟨_, _, kept⟩
  · exact absurd same other
  · simp at same
  · rwa [reform, relabelAll_unnamed _ x rfl] at kept

end OtherClass

def referenceOf : Form → Option FieldSymbol
  | .ident _ _ field => field
  | .fieldAccess _ _ _ field => field
  | _ => none

theorem kind_of_reference {form : Form} {field : FieldSymbol}
    (refers : referenceOf form = some field) : form.kind = .ident ∨ form.kind = .fieldAccess := by
  cases form with
  | ident => exact .inl rfl
  | fieldAccess => exact .inr rfl
  | _ => simp [referenceOf] at refers

theorem referenceOf_renamedForm (name : Text) (form : Form) :
    referenceOf (renamedForm name form) =
      (referenceOf form).map fun field => { field with name } := by
  cases form <;> rfl

theorem refersTo_iff {fqn name : Text} {n : Node} :
    refersTo fqn name (some n) = true ↔
      ∃ field, referenceOf n.form = some field ∧ field.owner = fqn ∧ field.name = name := by
  obtain ⟨pos, form⟩ := n
  cases form with
  | ident _ _ field => cases field <;> simp [refersTo, referenceOf]
  | fieldAccess _ _ _ field => cases field <;> simp [refersTo, referenceOf]
  | _ => simp [refersTo, referenceOf]

section Reference
variable {t t' : Tree} {f below : Forest} {c : NodeId} {pos : Position} {d : ClassDecl}
  {groups : List Group} {id : NodeId} {n : Node} {field : FieldSymbol}

theorem refersTo_peek_iff {fqn name : Text} :
    refersTo fqn name (t.peek id) = true ↔ ∃ n field, t.Holds id n ∧
      referenceOf n.form = some field ∧ field.owner = fqn ∧ field.name = name := by
  constructor
  · intro refers
    cases found : t.peek id with
    | none => simp [found, refersTo] at refers
    | some n =>
        rw [found] at refers
        obtain ⟨field, result⟩ := refersTo_iff.mp refers
        exact ⟨n, field, Tree.holds_of_peek found, result⟩
  · rintro ⟨n, field, held, result⟩
    rw [held.peek_eq]
    exact refersTo_iff.mpr ⟨field, result⟩

theorem Edited.reference (edited : Edited t t' c below pos d groups)
    (here : ClassIn t f c below pos d) (fits : Fits t c below d groups) (held : t.Holds id n)
    (refers : referenceOf n.form = some field) :
    t'.Holds id (reform (relabelAll (renamingsIn t c below d.fqn groups)) id n) ∧
      ∀ r ∈ renamingsIn t c below d.fqn groups, id ≠ r.var := by
  constructor
  · rcases edited.old here fits held with ⟨_, rfl⟩ | ⟨_, _, _, _, _, rfl, _⟩ | ⟨_, _, kept⟩
    · simp [referenceOf] at refers
    · simp [referenceOf] at refers
    · exact kept
  · rintro r inList rfl
    obtain ⟨g, inPlan, isRename, rfl⟩ := mem_renamingsIn.mp inList
    obtain ⟨_, _, _, _, _, _, _, _, variable_⟩ := fits.renamed_field inPlan isRename
    rw [held.unique variable_] at refers
    simp [referenceOf] at refers

theorem mem_refs_iff (held : t.Holds id n) (refers : referenceOf n.form = some field)
    {fqn name : Text} :
    (id ∈ (Forest.cons c below .nil).ids.filter fun id => refersTo fqn name (t.peek id)) ↔
      id ∈ (Forest.cons c below .nil).ids ∧ field.owner = fqn ∧ field.name = name := by
  rw [List.mem_filter, held.peek_eq, refersTo_iff]
  simp [refers]

/-- A reference outside the class, or to the field of a class of another name, stays. -/
theorem Edited.reference_stays (edited : Edited t t' c below pos d groups)
    (here : ClassIn t f c below pos d) (fits : Fits t c below d groups) (held : t.Holds id n)
    (refers : referenceOf n.form = some field)
    (elsewhere : id ∉ (Forest.cons c below .nil).ids ∨ field.owner ≠ d.fqn) : t'.Holds id n := by
  obtain ⟨kept, noVar⟩ := edited.reference here fits held refers
  have noRef : ∀ r ∈ renamingsIn t c below d.fqn groups, id ∉ r.refs := by
    intro r inList isRef
    obtain ⟨g, _, _, rfl⟩ := mem_renamingsIn.mp inList
    obtain ⟨inPart, owner, _⟩ := (mem_refs_iff held refers).mp isRef
    rcases elsewhere with outside | other
    · exact outside inPart
    · exact other owner
  rwa [reform, relabelAll_untouched noVar noRef] at kept

/-- A reference in the class follows the field that it names. -/
theorem Edited.reference_follows (edited : Edited t t' c below pos d groups)
    (here : ClassIn t f c below pos d) (fits : Fits t c below d groups) (held : t.Holds id n)
    (refers : referenceOf n.form = some field) (inPart : id ∈ (Forest.cons c below .nil).ids)
    (owner : field.owner = d.fqn) {v : NodeId} (names : NamesField t d.members field.name v) :
    (newName t c below d.fqn groups v field.name = field.name ∧ t'.Holds id n) ∨
      t'.Holds id
        { n with form := renamedForm (newName t c below d.fqn groups v field.name) n.form } := by
  obtain ⟨kept, noVar⟩ := edited.reference here fits held refers
  have renamesIt : ∀ g ∈ groups, g.action = .rename → field.name = g.oldName → v = g.var := by
    intro g inPlan isRename same
    exact (names.2 g.var (same ▸ fits.renamed_field inPlan isRename)).symm
  rcases newName_cases fits v field.name with
    ⟨g, inPlan, isRename, var, given⟩ | ⟨unnamed, same⟩
  · have oldName : field.name = g.oldName :=
      (var ▸ names.1).name_unique (fits.renamed_field inPlan isRename)
    refine .inr ?_
    rw [given]
    have renamed := relabelAll_reference noVar (mem_renamingsIn.mpr ⟨g, inPlan, isRename, rfl⟩)
      ((mem_refs_iff held refers).mpr ⟨inPart, owner, oldName⟩) (fun r inList isRef => by
        obtain ⟨g', inPlan', isRename', rfl⟩ := mem_renamingsIn.mp inList
        obtain ⟨_, _, oldName'⟩ := (mem_refs_iff held refers).mp isRef
        have var' := renamesIt g' inPlan' isRename' oldName'
        rw [fits.var_injective inPlan inPlan' (by simp [isRename]) (by simp [isRename'])
          (var.symm.trans var')]) n.form
    rwa [reform, renamed] at kept
  · refine .inl ⟨same, ?_⟩
    have noRef : ∀ r ∈ renamingsIn t c below d.fqn groups, id ∉ r.refs := by
      intro r inList isRef
      obtain ⟨g, inPlan, isRename, rfl⟩ := mem_renamingsIn.mp inList
      obtain ⟨_, _, oldName⟩ := (mem_refs_iff held refers).mp isRef
      exact unnamed g inPlan isRename (renamesIt g inPlan isRename oldName)
    rwa [reform, relabelAll_untouched noVar noRef] at kept

end Reference

end LiteralHoist.Consolidate
