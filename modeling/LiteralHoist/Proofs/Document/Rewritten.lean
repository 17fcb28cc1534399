import LiteralHoist.Proofs.Document.Decoded
import LiteralHoist.Proofs.Document.Encoded
import LiteralHoist.Proofs.Source.Words

/-!
# Units that are written and read again

The wire form of a tree that was read is read as the same tree, with the same numbers.  The
induction is on what was added when the tree was read first: the wire form that is written for a
node describes the node, and has under its keys what was added below it, so adding it takes the
same steps.
-/

set_option autoImplicit false

namespace LiteralHoist.Document

open LiteralHoist.Source

section Attributes
variable (pos : Position) (form : Form)

theorem pos_nodeAttributes : (nodeAttributes ⟨pos, form⟩).pos = pos := by
  cases form <;> rfl

theorem kind_nodeAttributes : (nodeAttributes ⟨pos, form⟩).text .kind = form.kind.name := by
  cases form <;> rfl

theorem checkedKind_nodeAttributes {allowed : List Kind} (fits : form.kind ∈ allowed) :
    (nodeAttributes ⟨pos, form⟩).checkedKind allowed = .ok form.kind := by
  rw [Attributes.checkedKind, kind_nodeAttributes, Kind.ofName?_name]
  exact if_pos fits

end Attributes

/-- A set of modifiers that words name. -/
def Spelled (mods : Modifiers) : Prop :=
  ∃ words, Modifiers.ofWords words = .ok mods

theorem checkedMods_of_spelled {mods : Modifiers} (spelled : Spelled mods) (a : Attributes) :
    a.checkedMods mods.words = .ok mods := by
  obtain ⟨words, known⟩ := spelled
  rw [Attributes.checkedMods, Modifiers.ofWords_words known]

theorem spelled_of_checkedMods {a : Attributes} {words : List Text} {mods : Modifiers}
    (checked : a.checkedMods words = .ok mods) : Spelled mods := by
  rw [Attributes.checkedMods] at checked
  cases known : Modifiers.ofWords words with
  | error unknown => simp [known, Attributes.refuse] at checked
  | ok made =>
      simp only [known] at checked
      exact ⟨words, Except.ok.inj checked ▸ known⟩

theorem checkedField_of_spelled {a : Attributes} {field : Option FieldSymbol}
    (written : a.field = field.map wireField) (spelled : ∀ s ∈ field, Spelled s.mods) :
    a.checkedField = .ok field := by
  rw [Attributes.checkedField, written]
  cases field with
  | none => rfl
  | some s =>
      simp only [Option.map_some, wireField, checkedMods_of_spelled (spelled s rfl), ok_bind]
      rfl

theorem spelled_of_checkedField {a : Attributes} {field : Option FieldSymbol}
    (checked : a.checkedField = .ok field) : ∀ s ∈ field, Spelled s.mods := by
  rw [Attributes.checkedField] at checked
  cases symbol : a.field with
  | none =>
      simp only [symbol] at checked
      simp [← Except.ok.inj checked]
  | some f =>
      simp only [symbol] at checked
      obtain ⟨mods, known, made⟩ := bind_eq_ok checked
      rw [← Except.ok.inj made]
      rintro s ⟨rfl⟩
      exact spelled_of_checkedMods known

theorem checkedLiteral_name {a : Attributes} {kind : LiteralKind}
    (written : a.text .lit = kind.name) : a.checkedLiteral = .ok kind := by
  rw [Attributes.checkedLiteral, written, if_neg kind.name_ne_empty, LiteralKind.ofName?_name]

/-- The attributes that are written for a form describe it, if any attributes do. -/
theorem describes_nodeAttributes {a : Attributes} {form : Form} (described : a.Describes form)
    (pos : Position) : (nodeAttributes ⟨pos, form⟩).Describes form := by
  cases form with
  | unit d => exact ⟨rfl, rfl, rfl⟩
  | classDecl d => exact ⟨checkedMods_of_spelled (spelled_of_checkedMods described.1) _, rfl, rfl⟩
  | method d => exact ⟨checkedMods_of_spelled (spelled_of_checkedMods described.1) _, rfl, rfl⟩
  | varDecl d => exact ⟨checkedMods_of_spelled (spelled_of_checkedMods described.1) _, rfl⟩
  | namedVar name init => exact rfl
  | annot name args => exact rfl
  | block stmts => trivial
  | exprStmt x => trivial
  | «return» x => trivial
  | ifStmt c a b => trivial
  | assign op target value =>
      have given : op ≠ "" := by
        rw [show op = if a.text .op = "" then Text.ofString "=" else a.text .op from described]
        split
        · decide
        · assumption
      exact (if_neg given).symm
  | literal lit => exact ⟨checkedLiteral_name rfl, rfl, rfl, rfl⟩
  | ident name type field =>
      exact ⟨checkedField_of_spelled rfl (spelled_of_checkedField described.1), rfl, rfl⟩
  | fieldAccess x name type field =>
      exact ⟨checkedField_of_spelled rfl (spelled_of_checkedField described.1), rfl, rfl⟩
  | call recv name args type => exact ⟨rfl, rfl⟩
  | new className args => exact rfl
  | parens x => trivial
  | binary op x y type => exact ⟨rfl, rfl⟩
  | unary op x => exact rfl

theorem checkedMods_nodeAttributes {a : Attributes} {form : Form} (described : a.Describes form)
    (pos : Position) : ∃ mods, (nodeAttributes ⟨pos, form⟩).checkedMods
      ((nodeAttributes ⟨pos, form⟩).words .mods) = .ok mods := by
  have again := describes_nodeAttributes described pos
  cases form with
  | classDecl d => exact ⟨d.mods, again.1⟩
  | method d => exact ⟨d.mods, again.1⟩
  | varDecl d => exact ⟨d.mods, again.1⟩
  | _ => exact ⟨.none, rfl⟩

theorem attrs_filledWire (child : NodeId → Option Wire) (n : Node) :
    (filledWire child n).attrs = nodeAttributes n := by
  obtain ⟨pos, form⟩ := n
  cases form <;> rfl

def Filling.Written (w : Wire) (child : NodeId → Option Wire) : Filling → Prop
  | .list slot _ ids => w.many slot = ids.map child
  | .one slot _ _ id => w.one slot = child id

theorem written_filledWire (child : NodeId → Option Wire) (pos : Position) (form : Form) :
    ∀ f ∈ fillings form, f.Written (filledWire child ⟨pos, form⟩) child := by
  cases form <;> simp [fillings, Filling.Written, filledWire, listChildren, singleChildren,
    Wire.setMany, Wire.setOne, Wire.setAttrs, Wire.many, Wire.one]

theorem place_of_filling {form : Form} {f : Filling} (member : f ∈ fillings form) {d : Demand}
    (demanded : d ∈ f.demands) : d.id ∈ form.places := by
  rw [← Form.map_id_demands, ← demands_fillings]
  exact List.mem_map_of_mem (List.mem_flatMap.mpr ⟨f, member, demanded⟩)

theorem vars_filledWire {child : NodeId → Option Wire} {pos : Position} {form : Form}
    (declared : ∀ d, form = .varDecl d → d.vars ≠ []) (declaration : form.kind = .varDecl) :
    (filledWire child ⟨pos, form⟩).many .vars ≠ [] := by
  cases form with
  | varDecl d =>
      have vars : (filledWire child ⟨pos, .varDecl d⟩).many .vars = d.vars.map child := rfl
      rw [vars]
      simpa using declared d rfl
  | _ => contradiction

/-- A written node is read as the node if what is written below it is read. -/
theorem addNode_filledWire {child : NodeId → Option Wire} {pos : Position} {form : Form}
    {allowed : List Kind} {t u : Tree} (fits : form.kind ∈ allowed) {a : Attributes}
    (described : a.Describes form) (declared : ∀ d, form = .varDecl d → d.vars ≠ [])
    (places : AddsAll (filledWire child ⟨pos, form⟩) t (fillings form) u) :
    addNode (filledWire child ⟨pos, form⟩) allowed t =
      .ok (u.size + 1, (u.push ⟨pos, form⟩).1) := by
  have attrs := attrs_filledWire child ⟨pos, form⟩
  have added : Added (filledWire child ⟨pos, form⟩) allowed t form u := by
    refine ⟨?_, ?_, ?_, vars_filledWire declared, places⟩
    · rw [attrs]
      exact checkedKind_nodeAttributes _ form fits
    · rw [attrs]
      exact checkedMods_nodeAttributes described _
    · rw [attrs]
      exact describes_nodeAttributes described _
  rw [added.addNode_eq, attrs, pos_nodeAttributes]

/-- Every declaration of a tree has a variable. -/
def DeclaresVars (t : Tree) : Prop :=
  ∀ id pos d, t.Holds id ⟨pos, .varDecl d⟩ → d.vars ≠ []

def Within (t whole : Tree) : Prop :=
  ∀ id n, t.Holds id n → whole.Holds id n

theorem Supplies.within {t u whole : Tree} {ds : List Demand} (supplied : Supplies t u ds)
    (within : Within u whole) : Within t whole := by
  obtain ⟨f, grown, _⟩ := supplied
  exact fun id n held => within id n (grown.keeps id n held)

theorem AddsAll.within {w : Wire} {fs : List Filling} {t u whole : Tree} (all : AddsAll w t fs u)
    (within : Within u whole) : Within t whole :=
  (all.supplies (fun _ _ _ _ _ => supplies_of_addList)
    (fun _ _ _ _ _ _ _ => supplies_of_addNode)).within within

theorem Within.of_push {t whole : Tree} {n : Node} (within : Within (t.push n).1 whole) :
    Within t whole :=
  fun id m held => within id m (held.push n)

/-- What is written for a number is read as the node that was added there. -/
def ReadAgain (whole : Tree) (_ : Wire) (allowed : List Kind) (t : Tree) (id : NodeId)
    (t' : Tree) : Prop :=
  Within t' whole → ∀ depth w, wireNode whole depth id = .ok (some w) →
    addNode w allowed t = .ok (id, t')

def ReadAgainList (whole : Tree) (_ : List (Option Wire)) (allowed : List Kind) (t : Tree)
    (ids : List NodeId) (t' : Tree) : Prop :=
  Within t' whole → ∀ depth child, (∀ x ∈ ids, wireNode whole depth x = .ok (child x)) →
    addList (ids.map child) allowed t = .ok (ids, t')

theorem present_of_wireNode {t : Tree} {depth : Nat} {id : NodeId} {n : Node} {w : Option Wire}
    (held : t.Holds id n) (run : wireNode t depth id = .ok w) : ∃ c, w = some c := by
  cases depth with
  | zero =>
      cases id with
      | zero => exact absurd rfl held.ne_zero
      | succ id => contradiction
  | succ depth =>
      obtain ⟨child, _, made⟩ := wireNode_inv held run
      exact ⟨_, made⟩

theorem holds_of_addNode {w : Wire} {allowed : List Kind} {t t' : Tree} {id : NodeId}
    (run : addNode w allowed t = .ok (id, t')) : ∃ n, t'.Holds id n := by
  obtain ⟨form, u, _, rfl, rfl⟩ := addNode_inv run
  exact ⟨_, u.holds_push_new _⟩

section Below
variable {whole : Tree} {w w' : Wire} {depth : Nat} {child : NodeId → Option Wire}

theorem Filling.Adds.again {f : Filling} {t u : Tree}
    (lists : ∀ slot kinds v ids v', addList (w.many slot) kinds v = .ok (ids, v') →
      ReadAgainList whole (w.many slot) kinds v ids v')
    (singles : ∀ slot c kinds v x v', w.one slot = some c → addNode c kinds v = .ok (x, v') →
      ReadAgain whole c kinds v x v')
    (each : ∀ d ∈ f.demands, wireNode whole depth d.id = .ok (child d.id))
    (written : f.Written w' child) (within : Within u whole) (adds : f.Adds w t u) :
    f.Adds w' t u := by
  cases f with
  | list slot kinds ids =>
      have listed : ∀ x ∈ ids, wireNode whole depth x = .ok (child x) :=
        fun x member => each (.must kinds x) (List.mem_map_of_mem member)
      have again := lists slot kinds t ids u adds within depth child listed
      rw [← show w'.many slot = ids.map child from written] at again
      exact again
  | one slot kinds required id =>
      have single : wireNode whole depth id = .ok (child id) :=
        each ⟨id, kinds, required⟩ (by simp [Filling.demands])
      obtain ⟨run, needed⟩ := adds
      rw [Filling.Adds, show w'.one slot = child id from written]
      rcases addOption_cases run with ⟨absent, rfl, rfl⟩ | ⟨c, present, run⟩
      · rw [wireNode_zero] at single
        rw [← Except.ok.inj single]
        exact ⟨rfl, by simpa [absent] using needed⟩
      · obtain ⟨n, held⟩ := holds_of_addNode run
        obtain ⟨c', made⟩ := present_of_wireNode (within id n held) single
        rw [made] at single ⊢
        exact ⟨singles slot c kinds t id u present run within depth c' single, fun _ => rfl⟩

theorem AddsAll.again {fs : List Filling} {t u : Tree}
    (each : ∀ f ∈ fs, ∀ v v', Within v' whole → f.Adds w v v' → f.Adds w' v v')
    (within : Within u whole) (all : AddsAll w t fs u) : AddsAll w' t fs u := by
  induction all with
  | nil => exact .nil
  | @cons t v u f rest first later ih =>
      have head := each f (by simp) t v (later.within within) first
      exact .cons head (ih (fun g member => each g (by simp [member])) within)

end Below

theorem hereditary_readAgain {whole : Tree} (declares : DeclaresVars whole) :
    Hereditary (ReadAgain whole) (ReadAgainList whole) where
  nil allowed t := by
    intro within depth child each
    rfl
  skip again := again
  cons {w rest allowed t id u ids t'} added first more later := by
    intro within depth child each
    obtain ⟨here, rest⟩ := List.forall_mem_cons.mp each
    have inside := (supplies_of_addList more).within within
    obtain ⟨n, held⟩ := holds_of_addNode added
    obtain ⟨c, made⟩ := present_of_wireNode (inside id n held) here
    rw [made] at here
    rw [List.map_cons, made, addList]
    refine (adding_bind_eq (first inside depth c here) _).trans ?_
    exact adding_bind_eq (later within depth child rest) _
  node {w allowed t form u} added lists singles := by
    intro within depth w' run
    have here : whole.Holds (u.size + 1) ⟨w.attrs.pos, form⟩ :=
      within _ _ (u.holds_push_new _)
    cases depth with
    | zero => contradiction
    | succ depth =>
        obtain ⟨child, each, made⟩ := wireNode_inv here run
        obtain rfl := Option.some.inj made
        have inside : Within u whole := within.of_push
        refine addNode_filledWire (checkedKind_mem added.kind) added.describes
          (fun d same => declares _ _ d (same ▸ here)) ?_
        refine added.places.again (fun f member v v' => ?_) inside
        refine Filling.Adds.again lists singles (fun d demanded => each d.id ?_)
          (written_filledWire child _ form f member)
        exact place_of_filling member demanded

/-- The wire form of a tree that was read, and of which every declaration has a variable, is read
as the same tree. -/
theorem treeOfUnit_unitOfTree {u u' : Option Wire} {t : Tree} (success : treeOfUnit u = .ok t)
    (declares : DeclaresVars t) (written : unitOfTree t = .ok u') : treeOfUnit u' = .ok t := by
  obtain ⟨built, root, added, rfl⟩ := treeOfUnit_eq success
  have again : addOption u' [.unit] {} = .ok (root, built) := by
    rw [unitOfTree] at written
    rcases addOption_cases added with ⟨_, rfl, rfl⟩ | ⟨w, _, run⟩
    · rw [wireNode_zero] at written
      rw [← Except.ok.inj written]
      rfl
    · have within : Within built { built with root } := fun _ _ held => held
      obtain ⟨n, held⟩ := holds_of_addNode run
      obtain ⟨w', rfl⟩ := present_of_wireNode (within root n held) written
      exact (hereditary_readAgain declares).addNode w [.unit] {} root built run within _ w' written
  rw [treeOfUnit, again]
  rfl

theorem toWire_inv {doc : Document} {w : WireDocument} (written : doc.toWire = .ok w) :
    w.version = (if doc.version = "" then Version.current else doc.version) ∧
      List.Forall₂ (fun t u => unitOfTree t = .ok u) doc.trees w.units := by
  obtain ⟨units, mapped, made⟩ := bind_eq_ok written
  obtain rfl := Except.ok.inj made
  exact ⟨rfl, forall₂_of_mapM_eq_ok mapped⟩

/-- The wire form of a document that was read, and of which every declaration has a variable, is
that of the same document. -/
theorem ofWire_toWire {d w : WireDocument} {doc : Document} (success : Document.ofWire d = .ok doc)
    (declares : ∀ t ∈ doc.trees, DeclaresVars t) (written : doc.toWire = .ok w) :
    Document.ofWire w = .ok doc := by
  obtain ⟨supported, version, trees⟩ := ofWire_iff.mp success
  obtain ⟨sameVersion, units⟩ := toWire_inv written
  have named : doc.version ≠ "" := by
    intro missing
    rw [← version, missing] at supported
    exact absurd supported (by decide)
  rw [if_neg named] at sameVersion
  refine ofWire_iff.mpr ⟨by rw [sameVersion, version, supported], sameVersion.symm, ?_⟩
  refine List.forall₂_iff_get.mpr ⟨units.length_eq.symm, fun i inUnits inTrees => ?_⟩
  have inOld : i < d.units.length := trees.length_eq ▸ inTrees
  exact treeOfUnit_unitOfTree (trees.get inOld inTrees) (declares _ (List.getElem_mem inTrees))
    (units.get inTrees inUnits)

end LiteralHoist.Document
