import LiteralHoist.Proofs.Consolidate.Step

/-!
# What a later run finds

After the edit of a class, the occurrences of the class are those whose value has no group, and the
constants of the remaining values are the same as before.  For every other class, occurrences and
constants do not change at all.

Without a limit on suffixes, a value stays without a group only if no name can be made for it.  A
class is settled once that holds of all its repeated values: its plan has no groups then, and skips
what it skipped before.
-/

set_option autoImplicit false

namespace LiteralHoist.Consolidate

open LiteralHoist.Source

/-! ## Occurrences -/

section Occurrences
variable {t t' : Tree} {f below : Forest} {c : NodeId} {pos : Position} {d : ClassDecl}
  {groups : List Group} {settings : Settings}

theorem Edited.contextAt_eq (edited : Edited t t' c below pos d groups)
    (here : ClassIn t f c below pos d) (fits : Fits t c below d groups) {up : Path}
    (held : ∀ p ∈ up, ∃ n, t.Holds p n) : contextAt t' up = contextAt t up := by
  induction up with
  | nil => rfl
  | cons p rest ih =>
      obtain ⟨n, there⟩ := held p (by simp)
      obtain ⟨n', there', resembles⟩ := edited.resembles here fits there
      have later := ih fun q member => held q (by simp [member])
      simp only [contextAt, there.peek_eq, there'.peek_eq, resembles.decides, resembles.context,
        later]

theorem siteAt_eq_nil {v : NodeId × Path} {n : Node} (held : t.Holds v.1 n)
    (other : n.kind ≠ .literal) : siteAt t settings v = [] := by
  obtain ⟨pos, form⟩ := n
  cases form with
  | literal lit => exact absurd rfl other
  | _ => simp [siteAt, held.peek_eq]

theorem siteAt_eq_nil_of_other {v : NodeId × Path} (context : contextAt t v.2 = .other) :
    siteAt t settings v = [] := by
  rw [List.eq_nil_iff_forall_not_mem]
  rintro ⟨value, id⟩ member
  obtain ⟨_, _, _, _, _, _, counts⟩ := mem_siteAt.mp member
  simp [context, Context.counts] at counts

/-- An occurrence of a group is none afterwards; every other node counts as before. -/
theorem Edited.siteAt_eq (edited : Edited t t' c below pos d groups)
    (here : ClassIn t f c below pos d) (fits : Fits t c below d groups) {v : NodeId × Path}
    (held : ∃ n, t.Holds v.1 n) (above : ∀ p ∈ v.2, ∃ n, t.Holds p n) :
    siteAt t' settings v =
      if ∃ g ∈ groups, v.1 ∈ g.sites then [] else siteAt t settings v := by
  obtain ⟨n, there⟩ := held
  by_cases site : ∃ g ∈ groups, v.1 ∈ g.sites
  · obtain ⟨g, inPlan, isSite⟩ := site
    obtain ⟨_, _, literal, _⟩ := fits.literal g inPlan v.1 isSite
    obtain ⟨_, reference, _⟩ := edited.site g inPlan v.1 isSite _ _ literal
    rw [if_pos ⟨g, inPlan, isSite⟩]
    exact siteAt_eq_nil reference (by simp [Node.kind, Form.kind])
  · rw [if_neg site]
    obtain ⟨pos', form⟩ := n
    cases form with
    | literal lit =>
        have kept := edited.literal_kept here fits there (by simpa using site)
        simp only [siteAt, kept.peek_eq, there.peek_eq, edited.contextAt_eq here fits above]
    | _ =>
        obtain ⟨n', there', resembles⟩ := edited.resembles here fits there
        rw [siteAt_eq_nil there (by simp [Node.kind, Form.kind]), siteAt_eq_nil there' ?_]
        rcases resembles.kind with same | ⟨isLiteral, _⟩
        · rw [same]
          simp [Node.kind, Form.kind]
        · simp [Node.kind, Form.kind] at isLiteral

/-- The initial value of a new constant is no occurrence. -/
theorem siteAt_newTrees (settings : Settings) : ∀ {count base : Nat} {above : Path},
    (∀ i < count, ∃ name lit, lit.isString = true ∧ DeclaredAt t name lit (base + 3 * i)) →
    ∀ v ∈ (newTrees base count).visits above, siteAt t settings v = [] := by
  intro count
  induction count with
  | zero => intro base above _ v member; simp [newTrees, Forest.visits] at member
  | succ count ih =>
      intro base above declared v member
      obtain ⟨name, lit, isString, first⟩ := declared 0 (by omega)
      simp only [newTrees, Forest.visits, List.append_nil, List.cons_append, List.nil_append,
        List.mem_cons] at member
      rcases member with rfl | rfl | rfl | later
      · exact siteAt_eq_nil first.declaration (by simp [Node.kind, Form.kind])
      · exact siteAt_eq_nil first.variable_ (by simp [Node.kind, Form.kind])
      · have declares : declaresConstants
            { mods := .constant, type := lit.type, vars := [base + 2] } = true := by
          have modifiers : Modifiers.includes .constant .constant = true := by decide
          simp only [Literal.isString, Bool.and_eq_true] at isString
          simp [declaresConstants, modifiers, isString.2]
        have context : contextAt t ((base + 2) :: (base + 3) :: above) = .other := by
          rw [contextAt, first.variable_.peek_eq]
          simp only [decidesContext, Bool.false_eq_true, if_false]
          rw [contextAt, first.declaration.peek_eq, contextBelow_constant declares]
          rfl
        exact siteAt_eq_nil_of_other context
      · refine ih (fun i small => ?_) v later
        obtain ⟨name', lit', isString', next⟩ := declared (i + 1) (by omega)
        have shift : base + 3 * (i + 1) = base + 3 + 3 * i := by omega
        exact ⟨name', lit', isString', shift ▸ next⟩

/-- A value has a group exactly if its occurrences are sites of a group. -/
theorem group_iff_site (here : ClassIn t f c below pos d) {value : Text} {id : NodeId}
    (occurs : (value, id) ∈ occurrencesIn t settings c below) :
    (∃ g ∈ (classPlan t settings c below d).groups, id ∈ g.sites) ↔
      value ∈ (classPlan t settings c below d).groups.map Group.value := by
  have fits := fits_classPlan here settings
  obtain ⟨_, _, lit, _, held, _, value_eq, _⟩ := mem_occurrencesIn.mp occurs
  constructor
  · rintro ⟨g, inPlan, site⟩
    obtain ⟨_, lit', held', _, value_eq'⟩ := fits.literal g inPlan id site
    obtain ⟨_, rfl⟩ := held.literal_unique held'
    exact List.mem_map.mpr ⟨g, inPlan, value_eq'.symm.trans value_eq⟩
  · intro planned
    obtain ⟨g, inPlan, rfl⟩ := List.mem_map.mp planned
    exact ⟨g, inPlan, (sites_of_mem_group (group_of_classPlan inPlan).1).mpr occurs⟩

end Occurrences

section Step
variable {settings : Settings} {t t' : Tree} {f below : Forest} {c : NodeId} {pos : Position}
  {d : ClassDecl}

theorem ClassStep.staysIn_eq (step : ClassStep settings t t' f c below pos d) {id : NodeId}
    (inside : id ∈ f.ids) : t'.staysIn id = t.staysIn id := by
  obtain ⟨n, held⟩ := step.here.shaped.follows.holds inside
  rw [Bool.eq_iff_iff, Tree.staysIn_iff, Tree.staysIn_iff]
  exact (step.isClass_iff held).not

theorem ClassIn.below_subset (here : ClassIn t f c below pos d) : below.ids ⊆ f.ids := by
  intro id member
  exact here.part_subset (by rw [Forest.ids_single]; exact List.mem_cons_of_mem _ member)

theorem ClassIn.visit_held (here : ClassIn t f c below pos d) {v : NodeId × Path}
    (visited : v ∈ (ownPart t c below).visits []) :
    (∃ n, t.Holds v.1 n) ∧ ∀ p ∈ v.2, ∃ n, t.Holds p n := by
  have visited' := visits_ownPart_subset visited
  refine ⟨held_of_visit here.follows visited', fun p onPath => ?_⟩
  rcases Forest.mem_of_visits visited' p onPath with above | inside
  · simp at above
  · exact here.follows.holds inside

theorem ClassStep.classIn (step : ClassStep settings t t' f c below pos d) :
    ClassIn t' (editedForest t f c d (classPlan t settings c below d).groups) c
      (below.insertAt d.annotations.length
        (newDeclarations t (classPlan t settings c below d).groups)) pos
      (extended t d (classPlan t settings c below d).groups) :=
  step.edited.classIn step.here step.fits

/-- Of the occurrences in the class, those remain whose value has no group. -/
theorem ClassStep.occurrencesIn_eq (step : ClassStep settings t t' f c below pos d) :
    occurrencesIn t' settings c (below.insertAt d.annotations.length
        (newDeclarations t (classPlan t settings c below d).groups)) =
      (occurrencesIn t settings c below).filter fun site =>
        !((classPlan t settings c below d).groups.map Group.value).contains site.1 := by
  have silent : ∀ v ∈ ((newDeclarations t (classPlan t settings c below d).groups).clip
      t'.staysIn).visits [c], siteAt t' settings v = [] := by
    intro v visited
    refine siteAt_newTrees settings (fun i small => ?_) v
      ((Forest.visits_clip_sublist _ _ _).subset visited)
    obtain ⟨g, _, _, lit, isString, _, declared⟩ := step.edited.declared small
    exact ⟨g.name, lit, isString, declared⟩
  have clipped : below.clip t'.staysIn = below.clip t.staysIn :=
    Forest.clip_congr fun id member => step.staysIn_eq (step.here.below_subset member)
  have visits : ((ownPart t' c (below.insertAt d.annotations.length
      (newDeclarations t (classPlan t settings c below d).groups))).visits []).flatMap
      (siteAt t' settings) = ((ownPart t c below).visits []).flatMap (siteAt t' settings) := by
    simp only [ownPart, Forest.visits, List.append_nil, List.flatMap_cons, Forest.clip_insertAt,
      clipped, Forest.flatMap_visits_insertAt silent]
  rw [occurrencesIn, visits, occurrencesIn, List.filter_flatMap]
  refine List.flatMap_congr fun v visited => ?_
  obtain ⟨held, above⟩ := step.here.visit_held visited
  rw [step.edited.siteAt_eq step.here step.fits held above]
  have decided : ∀ site ∈ siteAt t settings v,
      ((∃ g ∈ (classPlan t settings c below d).groups, v.1 ∈ g.sites) ↔
        site.1 ∈ (classPlan t settings c below d).groups.map Group.value) := by
    rintro ⟨value, id⟩ member
    obtain ⟨rfl, _⟩ := mem_siteAt.mp member
    exact group_iff_site step.here (List.mem_flatMap.mpr ⟨v, visited, member⟩)
  split
  · rename_i planned
    refine (List.filter_eq_nil_iff.mpr fun site member => ?_).symm
    simpa using (decided site member).mp planned
  · rename_i unplanned
    refine (List.filter_eq_self.mpr fun site member => ?_).symm
    simpa using (decided site member).not.mp unplanned

theorem ClassStep.classIn_other (step : ClassStep settings t t' f c below pos d) {x : NodeId}
    {within : Forest} {xPos : Position} {dx : ClassDecl} (there : ClassIn t f x within xPos dx)
    (other : x ≠ c) :
    ClassIn t' (editedForest t f c d (classPlan t settings c below d).groups) x
      (within.graft c d.annotations.length
        (newDeclarations t (classPlan t settings c below d).groups)) xPos dx where
  shaped := step.shaped
  occurs := there.occurs.graft_other other step.here.shaped.nodup
  held := step.edited.class_other step.here step.fits there.held other

theorem ClassStep.occurrencesIn_other (step : ClassStep settings t t' f c below pos d)
    {x : NodeId} {within : Forest} {xPos : Position} {dx : ClassDecl}
    (there : ClassIn t f x within xPos dx) (other : x ≠ c) :
    occurrencesIn t' settings x (within.graft c d.annotations.length
        (newDeclarations t (classPlan t settings c below d).groups)) =
      occurrencesIn t settings x within := by
  have closed : t'.staysIn c = false := by
    have isClass : t'.IsClass c := ⟨pos, _, step.edited.class_⟩
    rw [Bool.eq_false_iff, Ne, Tree.staysIn_iff]
    exact fun outside => outside isClass
  have clipped : within.clip t'.staysIn = within.clip t.staysIn :=
    Forest.clip_congr fun id member => step.staysIn_eq (there.below_subset member)
  have same : ownPart t' x (within.graft c d.annotations.length
      (newDeclarations t (classPlan t settings c below d).groups)) = ownPart t x within := by
    rw [ownPart, Forest.clip_graft closed, clipped, ownPart]
  rw [occurrencesIn, same, occurrencesIn]
  refine List.flatMap_congr fun v visited => ?_
  obtain ⟨held, above⟩ := there.visit_held visited
  rw [step.edited.siteAt_eq step.here step.fits held above, if_neg]
  rintro ⟨g, inPlan, site⟩
  have inside := Forest.fst_mem_of_visits visited
  rw [ownPart, Forest.ids_single, List.mem_cons] at inside
  rcases inside with self | nested
  · obtain ⟨_, _, literal, _⟩ := step.fits.literal g inPlan v.1 site
    exact there.ne_of_holds literal (by simp [Node.kind, Form.kind]) self
  · have owned := (there.occurs.owned_iff there.shaped.follows).mpr nested
    exact step.fits.not_site_of_other step.here there.mem there.held other owned g inPlan site

end Step

/-! ## Constants -/

section Constants
variable {t t' : Tree} {f below : Forest} {c : NodeId} {pos : Position} {d : ClassDecl}
  {groups : List Group}

def afterEdit (t : Tree) (c : NodeId) (below : Forest) (fqn : Text) (groups : List Group)
    (k : Constant) : Constant :=
  { k with name := newName t c below fqn groups k.var k.name }

theorem peek_zero (t : Tree) : t.peek 0 = none := by
  simp [Tree.peek, Tree.node?_zero]

theorem Fits.not_site_of_not_string (fits : Fits t c below d groups) {id : NodeId}
    {litPos : Position} {lit : Literal} (held : t.Holds id ⟨litPos, .literal lit⟩)
    (other : lit.isString = false) : ∀ g ∈ groups, id ∉ g.sites := by
  intro g inPlan site
  obtain ⟨_, lit', held', isString, _⟩ := fits.literal g inPlan id site
  obtain ⟨_, rfl⟩ := held.literal_unique held'
  simp [isString] at other

theorem Edited.constantAt_eq (edited : Edited t t' c below pos d groups)
    (here : ClassIn t f c below pos d) (fits : Fits t c below d groups) {v init : NodeId}
    {varPos : Position} {name : Text} (var : t.Holds v ⟨varPos, .namedVar name init⟩)
    (present : init = 0 ∨ ∃ n, t.Holds init n)
    (outside : ∀ {pos lit}, t.Holds init ⟨pos, .literal lit⟩ → lit.isString = true →
      ∀ g ∈ groups, init ∉ g.sites) :
    constantAt t' v = (constantAt t v).map (afterEdit t c below d.fqn groups) := by
  have var' := edited.namedVar here fits var
  rcases present with rfl | ⟨⟨initPos, form⟩, held⟩
  · simp [constantAt, var.peek_eq, var'.peek_eq, peek_zero]
  · cases form with
    | literal lit =>
        have notSite : ∀ g ∈ groups, init ∉ g.sites := by
          cases isString : lit.isString with
          | true => exact outside held isString
          | false => exact fits.not_site_of_not_string held isString
        have held' := edited.literal_kept here fits held notSite
        cases isString : lit.isString <;>
          simp [constantAt, var.peek_eq, var'.peek_eq, held.peek_eq, held'.peek_eq, isString,
            afterEdit]
    | _ =>
        obtain ⟨⟨pos', form'⟩, held', resembles⟩ := edited.resembles here fits held
        have notLiteral : ∀ lit, form' ≠ .literal lit := by
          rintro lit rfl
          rcases resembles.kind with same | ⟨_, isIdent⟩
          · simp [Node.kind, Form.kind] at same
          · simp [Node.kind, Form.kind] at isIdent
        cases form' with
        | literal lit => exact absurd rfl (notLiteral lit)
        | _ => simp [constantAt, var.peek_eq, var'.peek_eq, held.peek_eq, held'.peek_eq]

/-- The constants that the members of a class declared, under their new names. -/
theorem Edited.declaredIn_eq (edited : Edited t t' c below pos d groups)
    (here : ClassIn t f c below pos d) (fits : Fits t c below d groups) {x : NodeId}
    {xPos : Position} {dx : ClassDecl} (inside : x ∈ f.ids)
    (held : t.Holds x ⟨xPos, .classDecl dx⟩)
    (outside : ∀ {k member init vd lit}, IsConstant t dx k member init vd lit →
      ∀ g ∈ groups, init ∉ g.sites) :
    declaredIn t' dx = (declaredIn t dx).map (afterEdit t c below d.fqn groups) := by
  rw [declaredIn, declaredIn, List.map_flatMap]
  refine List.flatMap_congr fun m isMember => ?_
  obtain ⟨⟨mPos, form⟩, member, _⟩ := here.shaped.member_holds inside held isMember
  have memberIn := here.shaped.follows.child_mem inside
    (here.shaped.child_of_member inside held isMember)
  cases form with
  | varDecl vd =>
      have member' := edited.fixed here fits member rfl
      cases declares : declaresConstants vd with
      | false => simp [declaredBy, member.peek_eq, member'.peek_eq, declares]
      | true =>
          simp only [declaredBy, member.peek_eq, member'.peek_eq, declares, if_true,
            List.map_flatMap]
          refine List.flatMap_congr fun v isVar => ?_
          obtain ⟨varPos, name, init, var⟩ := here.shaped.var_holds memberIn member isVar
          have varIn := here.shaped.follows.child_mem memberIn
            (here.shaped.child_of_var memberIn member isVar)
          refine edited.constantAt_eq here fits var (here.shaped.init_holds varIn var) ?_
          intro litPos lit initial isString
          exact outside (k := ⟨name, lit.value, v⟩) ⟨isMember, ⟨mPos, member⟩, declares, isVar,
            ⟨varPos, var⟩, ⟨litPos, initial⟩, isString, rfl⟩
  | _ =>
      obtain ⟨⟨pos', form'⟩, member', resembles⟩ := edited.resembles here fits member
      have notDecl : ∀ vd, form' ≠ .varDecl vd := by
        rintro vd rfl
        rcases resembles.kind with same | ⟨_, isIdent⟩
        · simp [Node.kind, Form.kind] at same
        · simp [Node.kind, Form.kind] at isIdent
      cases form' with
      | varDecl vd => exact absurd rfl (notDecl vd)
      | _ => simp [declaredBy, member.peek_eq, member'.peek_eq]

theorem Edited.declaredIn_other (edited : Edited t t' c below pos d groups)
    (here : ClassIn t f c below pos d) (fits : Fits t c below d groups) {x : NodeId}
    {xPos : Position} {dx : ClassDecl} (inside : x ∈ f.ids)
    (held : t.Holds x ⟨xPos, .classDecl dx⟩) (other : x ≠ c) :
    declaredIn t' dx = declaredIn t dx := by
  rw [edited.declaredIn_eq here fits inside held fun constant =>
    fits.not_site_of_other here inside held other (constant.owned here.shaped inside held)]
  refine (List.map_congr_left fun k declared => ?_).trans (List.map_id _)
  obtain ⟨_, _, _, _, constant⟩ := isConstant_of_mem declared
  rw [afterEdit, newName_of_other here fits inside held other constant.fieldVar]
  rfl

/-- A constant whose value has no group keeps its name. -/
theorem Fits.afterEdit_eq (fits : Fits t c below d groups) {k : Constant}
    (declared : k ∈ declaredIn t d) (unplanned : k.value ∉ groups.map Group.value) :
    afterEdit t c below d.fqn groups k = k := by
  obtain ⟨_, _, _, _, constant⟩ := isConstant_of_mem declared
  rw [afterEdit, newName_of_kept]
  intro g inPlan isRename same
  obtain ⟨_, _, _, _, constant'⟩ := fits.constant g inPlan (by simp [isRename])
  exact unplanned (List.mem_map.mpr ⟨g, inPlan, (constant.value_unique constant' same).symm⟩)

/-- The first constant of a value without a group is the same as before. -/
theorem Edited.find?_declaredIn (edited : Edited t t' c below pos d groups)
    (here : ClassIn t f c below pos d) (fits : Fits t c below d groups) {value : Text}
    (unplanned : value ∉ groups.map Group.value) :
    (declaredIn t' (extended t d groups)).find? (·.value == value) =
      (declaredIn t d).find? (·.value == value) := by
  have split_members : declaredIn t' (extended t d groups) =
      (newDeclarations t groups).roots.flatMap (declaredBy t') ++ declaredIn t' d := by
    rw [declaredIn, extended, List.flatMap_append, declaredIn]
  have newValues : ((newDeclarations t groups).roots.flatMap (declaredBy t')).find?
      (·.value == value) = none := by
    rw [List.find?_eq_none]
    intro k declared
    obtain ⟨_, _, _, _, constant⟩ :=
      isConstant_of_mem (d := { members := (newDeclarations t groups).roots }) declared
    obtain ⟨i, g, place, _, var⟩ := edited.fieldVar_new constant.fieldVar
    obtain ⟨_, _, _, _, constant'⟩ := edited.isConstant_new (d := d) place
    have same := constant.value_unique constant' var
    rw [beq_iff_eq, same]
    rintro rfl
    exact unplanned (List.mem_map.mpr ⟨g, (mem_of_inserted place).1, rfl⟩)
  rw [split_members, List.find?_append, newValues, Option.none_or,
    edited.declaredIn_eq here fits here.mem here.held
      (fun constant g inPlan => fits.initial g inPlan constant), List.find?_map]
  cases found : (declaredIn t d).find? (·.value == value) with
  | none =>
      rw [show ((fun k : Constant => k.value == value) ∘ afterEdit t c below d.fqn groups) =
        fun k => k.value == value from rfl, found]
      rfl
  | some k =>
      rw [show ((fun k : Constant => k.value == value) ∘ afterEdit t c below d.fqn groups) =
        fun k => k.value == value from rfl, found, Option.map_some]
      have isValue : k.value = value := by simpa using List.find?_some found
      rw [fits.afterEdit_eq (List.mem_of_find?_eq_some found) (isValue ▸ unplanned)]

end Constants

end LiteralHoist.Consolidate
