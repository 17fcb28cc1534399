import LiteralHoist.Proofs.Consolidate.Safety
import LiteralHoist.Proofs.Consolidate.Survival

/-!
# What carrying out a plan changes

Of the nodes that a tree has, carrying out the plan of a class changes the occurrences, the
variables of renamed constants, the references to these in the class, and the class itself.  The
fields of the class have different names, so no two renamings meet in a reference, and no name that
is given is one that a renaming takes away.
-/

set_option autoImplicit false

namespace LiteralHoist.Consolidate

open LiteralHoist.Source LiteralHoist.Document

/-- A group renames the field that a node in the class refers to. -/
def RenamesAt (t : Tree) (c : NodeId) (fqn : Text) (g : Group) (id : NodeId) : Prop :=
  g.action = .rename ∧ t.Below c id ∧ refersTo fqn g.oldName (t.peek id) = true

/-- A declaration behind the nodes of a tree declares the new constant of a group. -/
def DeclaresNew (t t' : Tree) (decl : NodeId) (g : Group) : Prop :=
  ∃ base lit, t.size ≤ base ∧ decl = base + 3 ∧ lit.isString = true ∧ lit.value = g.value ∧
    DeclaredAt t' g.name lit base

structure Footprint (t t' : Tree) (c : NodeId) (pos : Position) (d : ClassDecl)
    (groups : List Group) : Prop where
  root_eq : t'.root = t.root
  size_eq : t'.size = t.size + 3 * (inserted groups).length
  site : ∀ g ∈ groups, ∀ id ∈ g.sites, ∃ pos lit field, t.Holds id ⟨pos, .literal lit⟩ ∧
    t'.Holds id ⟨pos, .ident g.name lit.type (some field)⟩ ∧ field.owner = d.fqn ∧
    field.name = g.name
  var : ∀ g ∈ groups, g.action = .rename → ∃ pos init,
    t.Holds g.var ⟨pos, .namedVar g.oldName init⟩ ∧ t'.Holds g.var ⟨pos, .namedVar g.name init⟩
  ident : ∀ g ∈ groups, ∀ id pos name type field, RenamesAt t c d.fqn g id →
    t.Holds id ⟨pos, .ident name type (some field)⟩ →
    t'.Holds id ⟨pos, .ident g.name type (some { field with name := g.name })⟩
  access : ∀ g ∈ groups, ∀ id pos x name type field, RenamesAt t c d.fqn g id →
    t.Holds id ⟨pos, .fieldAccess x name type (some field)⟩ →
    t'.Holds id ⟨pos, .fieldAccess x g.name type (some { field with name := g.name })⟩
  class_ : ∃ decls, t'.Holds c ⟨pos, .classDecl { d with members := decls ++ d.members }⟩ ∧
    List.Forall₂ (DeclaresNew t t') decls (inserted groups)
  rest : ∀ id n, t.Holds id n → id ≠ c → (∀ g ∈ groups, id ∉ g.sites) →
    (∀ g ∈ groups, g.action = .rename → id ≠ g.var) →
    (∀ g ∈ groups, ¬ RenamesAt t c d.fqn g id) → t'.Holds id n
  cleared : ∀ g ∈ groups, g.action = .rename → ∀ id, t'.Below c id →
    refersTo d.fqn g.oldName (t'.peek id) = false

section Class
variable {t t' : Tree} {f below : Forest} {c : NodeId} {pos : Position} {d : ClassDecl}
  {groups : List Group}

/-- No group has a name that a renaming takes away. -/
theorem Fits.name_ne_oldName (here : ClassIn t f c below pos d) (fits : Fits t c below d groups)
    (distinct : DistinctFieldNames t d) {g g' : Group} (inPlan : g ∈ groups)
    (inPlan' : g' ∈ groups) (isRename : g'.action = .rename) : g.name ≠ g'.oldName := by
  intro same
  have field := fits.renamed_field inPlan' isRename
  by_cases reuse : g.action = .reuse
  · obtain ⟨_, _, _, _, constant⟩ := fits.constant g inPlan (by simp [reuse])
    rw [← same, (fits.reused g inPlan reuse).1] at field
    have var : g'.var = g.var := distinct constant.fieldVar field
    have group := fits.var_injective inPlan' inPlan (by simp [isRename]) (by simp [reuse]) var
    rw [← group, isRename] at reuse
    simp at reuse
  · exact fits.unbound g inPlan reuse (same ▸ field.bound here)

/-- A reference to a renamed field gets its new name. -/
theorem Edited.renames (edited : Edited t t' c below pos d groups)
    (here : ClassIn t f c below pos d) (fits : Fits t c below d groups)
    (distinct : DistinctFieldNames t d) {g : Group} (inPlan : g ∈ groups) {id : NodeId}
    (renames : RenamesAt t c d.fqn g id) {n : Node} (held : t.Holds id n) :
    t'.Holds id { n with form := renamedForm g.name n.form } := by
  obtain ⟨isRename, lower, refers⟩ := renames
  obtain ⟨n', field, held', refersTo, owner, name⟩ := refersTo_peek_iff.mp refers
  obtain rfl := held'.unique held
  have names : NamesField t d.members field.name g.var := by
    rw [name]
    have declared := fits.renamed_field inPlan isRename
    exact ⟨declared, fun v' => distinct declared⟩
  have given := newName_of_renamed fits inPlan isRename field.name
  rcases edited.reference_follows here fits held refersTo (here.in_part lower) owner names with
    ⟨same, _⟩ | follows
  · rw [given, name] at same
    exact absurd same (fits.name_ne_oldName here distinct inPlan inPlan isRename)
  · rwa [given] at follows

theorem Edited.rest (edited : Edited t t' c below pos d groups)
    (here : ClassIn t f c below pos d) {id : NodeId} {n : Node}
    (held : t.Holds id n) (other : id ≠ c) (outside : ∀ g ∈ groups, id ∉ g.sites)
    (noVar : ∀ g ∈ groups, g.action = .rename → id ≠ g.var)
    (noRef : ∀ g ∈ groups, ¬ RenamesAt t c d.fqn g id) : t'.Holds id n := by
  have kept := edited.kept id n held other outside
  rw [reform, relabelAll_untouched] at kept
  · exact kept
  · intro r inList
    obtain ⟨g, inPlan, isRename, rfl⟩ := mem_renamingsIn.mp inList
    exact noVar g inPlan isRename
  · intro r inList isRef
    obtain ⟨g, inPlan, isRename, rfl⟩ := mem_renamingsIn.mp inList
    obtain ⟨inPart, refers⟩ := List.mem_filter.mp isRef
    exact noRef g inPlan
      ⟨isRename, (here.occurs.below_iff here.shaped.follows).mpr inPart, by simpa using refers⟩

theorem Edited.cleared (edited : Edited t t' c below pos d groups)
    (here : ClassIn t f c below pos d) (fits : Fits t c below d groups)
    (distinct : DistinctFieldNames t d) {g : Group} (inPlan : g ∈ groups)
    (isRename : g.action = .rename) {id : NodeId} (lower : t'.Below c id) :
    refersTo d.fqn g.oldName (t'.peek id) = false := by
  by_contra refers
  obtain ⟨n', field', held', refers', owner', name'⟩ :=
    refersTo_peek_iff.mp (by simpa using refers)
  rcases part_cases ((edited.classIn here fits).in_part lower) with fresh | old
  · have kind := edited.kind_new fresh held'
    rcases kind_of_reference refers' with ident | access
    · simp [Node.kind, ident] at kind
    · simp [Node.kind, access] at kind
  · obtain ⟨n, held⟩ := here.follows.holds old
    have lower₀ := (here.occurs.below_iff here.shaped.follows).mpr old
    rcases edited.old here fits held with ⟨rfl, rfl⟩ | ⟨g', inPlan', _, _, _, _, refersFrom⟩ |
      ⟨other, outside, _⟩
    · rw [held'.unique edited.class_] at refers'
      simp [referenceOf] at refers'
    · obtain ⟨field, ident, _, named⟩ := refersFrom
      rw [held'.unique ident] at refers'
      obtain rfl := Option.some.inj refers'
      exact fits.name_ne_oldName here distinct inPlan' inPlan isRename (named.symm.trans name')
    · by_cases renamed : ∃ g' ∈ groups, RenamesAt t c d.fqn g' id
      · obtain ⟨g', inPlan', renames⟩ := renamed
        have after := edited.renames here fits distinct inPlan' renames held
        rw [held'.unique after, referenceOf_renamedForm] at refers'
        obtain ⟨field, _, rfl⟩ := Option.map_eq_some_iff.mp refers'
        exact fits.name_ne_oldName here distinct inPlan' inPlan isRename name'
      · push Not at renamed
        have noVar : ∀ g' ∈ groups, g'.action = .rename → id ≠ g'.var := by
          rintro g' inPlan' isRename' rfl
          obtain ⟨_, _, _, _, _, _, _, _, variable_⟩ := fits.renamed_field inPlan' isRename'
          rw [held'.unique (edited.namedVar here fits variable_)] at refers'
          simp [referenceOf] at refers'
        have same := held'.unique (edited.rest here held other outside noVar renamed)
        rw [same] at refers'
        exact renamed g inPlan ⟨isRename, lower₀,
          refersTo_peek_iff.mpr ⟨n, field', held, refers', owner', name'⟩⟩

theorem Edited.footprint (edited : Edited t t' c below pos d groups)
    (here : ClassIn t f c below pos d) (fits : Fits t c below d groups)
    (distinct : DistinctFieldNames t d) : Footprint t t' c pos d groups where
  root_eq := edited.root_eq
  size_eq := edited.size_eq
  site g inPlan id isSite := by
    obtain ⟨litPos, lit, held, _⟩ := fits.literal g inPlan id isSite
    obtain ⟨field, after⟩ := edited.site g inPlan id isSite litPos lit held
    exact ⟨litPos, lit, field, held, after⟩
  var g inPlan isRename := by
    obtain ⟨_, _, _, _, _, _, varPos, init, held⟩ := fits.renamed_field inPlan isRename
    have after := edited.namedVar here fits held
    rw [newName_of_renamed fits inPlan isRename] at after
    exact ⟨varPos, init, held, after⟩
  ident g inPlan id idPos name type field renames held :=
    edited.renames here fits distinct inPlan renames held
  access g inPlan id idPos x name type field renames held :=
    edited.renames here fits distinct inPlan renames held
  class_ := by
    refine ⟨(newDeclarations t groups).roots, edited.class_, ?_⟩
    refine forall₂_roots_newTrees (inserted groups) t.size fun i g place => ?_
    obtain ⟨lit, isString, value, declared⟩ := edited.new i g place
    exact ⟨t.size + 3 * i, lit, by omega, rfl, isString, value, declared⟩
  rest id n held other outside noVar noRef := edited.rest here held other outside noVar noRef
  cleared g inPlan isRename id lower := edited.cleared here fits distinct inPlan isRename lower

end Class

/-- After any runs, a class with a resolved type and fields of different names has a plan, the plan
can be carried out, and it changes the sites, the renamed variables and the references to them, and
the members of the class, but no other node. -/
theorem plan_footprint {codec : Codec} {bytes : List UInt8} {doc : Document}
    (accepted : Document.read codec bytes = .ok doc) {t : Tree} (member : t ∈ doc.trees) {u : Tree}
    (reached : Reached t u) {c : NodeId} {pos : Position} {d : ClassDecl}
    (held : u.Holds c ⟨pos, .classDecl d⟩) (resolved : d.fqn ≠ "")
    (distinct : DistinctFieldNames u d) (settings : Settings) :
    ∃ p u' stats, planClass u settings c = .ok (.ok p) ∧ applyPlan u p = .ok (u', stats) ∧
      Footprint u u' c pos d p.groups := by
  obtain ⟨f, below, here⟩ := exists_classIn_of_reached accepted member reached held
  have fits := fits_classPlan here settings
  have planned := planClass_eq here settings resolved
  obtain ⟨u', stats, applied, edited⟩ := applyPlan_edited here fits rfl rfl rfl
  exact ⟨_, u', stats, planned, applied, edited.footprint here fits distinct⟩

/-- A class with a constant `go`, its value and the value `"hi"` twice each, and references to the
constant: by simple name in the class, and by an access in a nested class. -/
def tracedUnit : Tree where
  root := 23
  nodes := #[
    some { form := .literal { value := "off", type := "String" } },
    some { form := .namedVar "go" 1 },
    some { form := .varDecl { mods := .constant, type := "String", vars := [2] } },
    some { form := .literal { value := "off", type := "String" } },
    some { form := .literal { value := "off", type := "String" } },
    some { form := .binary "+" 4 5 "" },
    some { form := .namedVar "x" 6 },
    some { form := .varDecl { mods := .ofList [.final], type := "String", vars := [7] } },
    some { form := .ident "go" "String" (some { owner := "A", name := "go" }) },
    some { form := .namedVar "y" 9 },
    some { form := .varDecl { type := "String", vars := [10] } },
    some { form := .ident "A" "" none },
    some { form := .fieldAccess 12 "go" "String" (some { owner := "A", name := "go" }) },
    some { form := .namedVar "z" 13 },
    some { form := .varDecl { type := "String", vars := [14] } },
    some { form := .classDecl { name := "B", fqn := "A.B", members := [15] } },
    some { form := .literal { value := "hi", type := "String" } },
    some { form := .literal { value := "hi", type := "String" } },
    some { form := .binary "+" 17 18 "" },
    some { form := .namedVar "w" 19 },
    some { form := .varDecl { mods := .ofList [.final], type := "String", vars := [20] } },
    some { form := .classDecl { name := "A", fqn := "A", members := [3, 8, 11, 16, 21] } },
    some { form := .unit { name := "A.java", classes := [22] } }]

theorem tracedUnit_footprint :
    ∃ p u' stats, planClass tracedUnit {} 22 = .ok (.ok p) ∧
      p.groups.map (fun g => (g.action, g.oldName, g.name)) =
        ([(.rename, "go", "GO"), (.insert, "", "HI")] : List (Action × Text × Text)) ∧
      applyPlan tracedUnit p = .ok (u', stats) ∧
      Footprint tracedUnit u' 22 {} { name := "A", fqn := "A", members := [3, 8, 11, 16, 21] }
        p.groups := by
  have accepted := read_writtenUnit (t := tracedUnit) (by decide +kernel)
  obtain ⟨p, u', stats, planned, result⟩ := plan_footprint accepted (List.mem_singleton.mpr rfl)
    .read (show tracedUnit.Holds 22 ⟨{}, .classDecl
      { name := "A", fqn := "A", members := [3, 8, 11, 16, 21] }⟩ from rfl) (by decide)
    (distinctFieldNames_of_check (by decide +kernel)) {}
  have names : (planClass tracedUnit {} 22).toOption.map (fun result => result.toOption.map
      fun p => p.groups.map fun g => (g.action, g.oldName, g.name)) =
      some (some ([(.rename, "go", "GO"), (.insert, "", "HI")] :
        List (Action × Text × Text))) := by decide +kernel
  rw [planned] at names
  exact ⟨p, u', stats, planned, by simpa [Except.toOption] using names, result⟩

end LiteralHoist.Consolidate
