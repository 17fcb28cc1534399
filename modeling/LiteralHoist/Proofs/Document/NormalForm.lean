import LiteralHoist.Proofs.Document.Grammar
import LiteralHoist.Proofs.Document.Rewritten
import LiteralHoist.Proofs.Document.WireForm

/-!
# The normal form of units

A unit that is read and written again comes out in its normal form: with the keys that the kinds of
its nodes use and nothing at the others, without the missing entries of lists, with the operator and
the literal kind that are assumed where none is given, and with modifiers in their order.  All other
texts and numbers stay as they were.

The normal form is defined on the wire form alone.  What is read and what is written are given by
different tables, and both have to agree with the table of keys here, kind by kind.
-/

set_option autoImplicit false

namespace LiteralHoist.Document

open LiteralHoist.Source

/-! ## Normal forms -/

/-- The keys that nodes of a kind use, next to their kind and their position. -/
def ownKeys : Kind → List Key
  | .unit => [.text .name, .text .package, .words .imports, .many .classes]
  | .classDecl => [.words .mods, .many .annotations, .text .name, .text .fqn, .many .members]
  | .method =>
    [.words .mods, .many .annotations, .text .result, .text .name, .many .params, .one .body]
  | .varDecl => [.words .mods, .many .annotations, .text .type, .many .vars]
  | .namedVar => [.text .name, .one .init]
  | .annot => [.text .name, .many .args]
  | .block => [.many .stmts]
  | .exprStmt | .return | .parens => [.one .x]
  | .ifStmt => [.one .cond, .one .thenBranch, .one .elseBranch]
  | .assign => [.one .lhs, .text .op, .one .rhs]
  | .literal => [.text .lit, .text .value, .text .source, .text .type]
  | .ident => [.text .name, .text .type, .field]
  | .fieldAccess => [.one .x, .text .name, .text .type, .field]
  | .call => [.one .recv, .text .name, .many .args, .text .type]
  | .new => [.text .className, .many .args]
  | .binary => [.one .x, .text .op, .one .y, .text .type]
  | .unary => [.text .op, .one .x]

def Attributes.kind? (a : Attributes) : Option Kind :=
  Kind.ofName? (a.text .kind)

def Attributes.keys (a : Attributes) : List Key :=
  [.text .kind, .number .line, .number .col] ++ (a.kind?.map ownKeys).getD []

def normalMods (words : List Text) : List Text :=
  let listed : List Text := ["public", "protected", "private", "abstract", "static", "final"]
  listed.filter (· ∈ words)

def WireField.normal (f : WireField) : WireField :=
  { f with mods := normalMods f.mods }

/-- A text of a node of a kind; what is assumed where none is given are the plain assignment and
string literals. -/
def normalText : Option Kind → TextKey → Text → Text
  | some .assign, .op, s => if s = "" then "=" else s
  | some .literal, .lit, s => if s = "" then "string" else s
  | _, _, s => s

def normalWords : WordsKey → List Text → List Text
  | .imports, words => words
  | .mods, words => normalMods words

def Attributes.normal (a : Attributes) : Attributes where
  text key := if .text key ∈ a.keys then normalText a.kind? key (a.text key) else ""
  number key := a.number key
  words key := if .words key ∈ a.keys then normalWords key (a.words key) else []
  field := if .field ∈ a.keys then a.field.map WireField.normal else none

mutual

/-- The normal form of a node. -/
def Wire.normal : Wire → Wire
  | .node attrs many one =>
    .node attrs.normal (fun slot => if .many slot ∈ attrs.keys then normalList (many slot) else [])
      (fun slot => if .one slot ∈ attrs.keys then normalOption (one slot) else none)

def normalList : List (Option Wire) → List (Option Wire)
  | [] => []
  | none :: rest => normalList rest
  | some w :: rest => some w.normal :: normalList rest

def normalOption : Option Wire → Option Wire
  | none => none
  | some w => some w.normal

end

theorem Wire.attrs_normal (w : Wire) : w.normal.attrs = w.attrs.normal := by
  cases w
  rfl

theorem Wire.many_normal (w : Wire) (slot : ListSlot) :
    w.normal.many slot = if .many slot ∈ w.attrs.keys then normalList (w.many slot) else [] := by
  cases w
  rfl

theorem Wire.one_normal (w : Wire) (slot : Slot) :
    w.normal.one slot = if .one slot ∈ w.attrs.keys then normalOption (w.one slot) else none := by
  cases w
  rfl

/-! ## Normal forms are normal -/

theorem normalMods_normalMods (words : List Text) :
    normalMods (normalMods words) = normalMods words := by
  unfold normalMods
  refine List.filter_congr fun word listed => ?_
  simp only [List.mem_filter, listed, true_and, decide_eq_true_eq]

theorem WireField.normal_normal (f : WireField) : f.normal.normal = f.normal := by
  simp [normal, normalMods_normalMods]

theorem normalText_of_given {kind : Option Kind} {key : TextKey} {s : Text} (given : s ≠ "") :
    normalText kind key s = s := by
  unfold normalText
  split
  · exact if_neg given
  · exact if_neg given
  · rfl

theorem normalText_normalText (kind : Option Kind) (key : TextKey) (s : Text) :
    normalText kind key (normalText kind key s) = normalText kind key s := by
  by_cases given : normalText kind key s = ""
  · have missing : s = "" := by
      by_contra present
      exact present (normalText_of_given present ▸ given)
    rw [given, ← missing, given, missing]
  · exact normalText_of_given given

theorem normalWords_normalWords (key : WordsKey) (words : List Text) :
    normalWords key (normalWords key words) = normalWords key words := by
  cases key with
  | imports => rfl
  | mods => exact normalMods_normalMods words

section Attributes
variable (a : Attributes)

theorem Attributes.kind?_normal : a.normal.kind? = a.kind? := by
  have same : a.normal.text .kind = a.text .kind := by
    simp [normal, keys, normalText]
  rw [kind?, same, kind?]

theorem Attributes.keys_normal : a.normal.keys = a.keys := by
  rw [keys, kind?_normal, keys]

theorem Attributes.normal_normal : a.normal.normal = a.normal := by
  change Attributes.mk _ _ _ _ = Attributes.mk _ _ _ _
  rw [Attributes.mk.injEq, keys_normal, kind?_normal]
  refine ⟨funext fun key => ?_, rfl, funext fun key => ?_, ?_⟩
  · by_cases used : .text key ∈ a.keys
    · simp [normal, used, normalText_normalText]
    · simp [used]
  · by_cases used : .words key ∈ a.keys
    · simp [normal, used, normalWords_normalWords]
    · simp [used]
  · by_cases used : .field ∈ a.keys
    · simp [normal, used, Function.comp_def, WireField.normal_normal]
    · simp [used]

end Attributes

mutual

theorem Wire.normal_normal (w : Wire) : w.normal.normal = w.normal := by
  match w with
  | .node attrs many one =>
    simp only [Wire.normal, attrs.normal_normal, attrs.keys_normal, Wire.node.injEq, true_and]
    refine ⟨funext fun slot => ?_, funext fun slot => ?_⟩
    · split
      · exact normalList_normalList (many slot)
      · rfl
    · split
      · exact normalOption_normalOption (one slot)
      · rfl

theorem normalList_normalList (ws : List (Option Wire)) :
    normalList (normalList ws) = normalList ws := by
  match ws with
  | [] => rfl
  | none :: rest =>
    rw [normalList]
    exact normalList_normalList rest
  | some w :: rest =>
    rw [normalList, normalList, w.normal_normal, normalList_normalList rest]

theorem normalOption_normalOption (w : Option Wire) :
    normalOption (normalOption w) = normalOption w := by
  match w with
  | none => rfl
  | some w => rw [normalOption, normalOption, w.normal_normal]

end

/-! ## What a reader takes from attributes -/

theorem words_of_checkedMods {a : Attributes} {words : List Text} {mods : Modifiers}
    (checked : a.checkedMods words = .ok mods) : mods.words = normalMods words := by
  rw [Attributes.checkedMods] at checked
  cases known : Modifiers.ofWords words with
  | error unknown => simp [known, Attributes.refuse] at checked
  | ok made =>
      simp only [known] at checked
      rw [← Except.ok.inj checked, Modifiers.words_of_ofWords known]
      rfl

theorem wireField_of_checkedField {a : Attributes} {field : Option FieldSymbol}
    (checked : a.checkedField = .ok field) :
    field.map wireField = a.field.map WireField.normal := by
  rw [Attributes.checkedField] at checked
  cases symbol : a.field with
  | none =>
      simp only [symbol] at checked
      rw [← Except.ok.inj checked]
      rfl
  | some f =>
      simp only [symbol] at checked
      obtain ⟨mods, known, made⟩ := bind_eq_ok checked
      rw [← Except.ok.inj made]
      simp [wireField, WireField.normal, words_of_checkedMods known]

theorem name_of_checkedLiteral {a : Attributes} {kind : LiteralKind}
    (checked : a.checkedLiteral = .ok kind) :
    kind.name = if a.text .lit = "" then Text.ofString "string" else a.text .lit := by
  rw [Attributes.checkedLiteral] at checked
  split at checked
  · rename_i missing
    rw [← Except.ok.inj checked, if_pos missing]
    rfl
  · rename_i given
    rw [if_neg given]
    cases known : LiteralKind.ofName? (a.text .lit) with
    | none => simp [known, Attributes.refuse] at checked
    | some found =>
        simp only [known] at checked
        rw [← Except.ok.inj checked]
        simpa using List.find?_some known

/-! ## The attributes of a node that was read -/

section Attributes
variable {a : Attributes} {form : Form} (known : a.kind? = some form.kind)
include known

theorem keys_of_kind :
    a.keys = [.text .kind, .number .line, .number .col] ++ ownKeys form.kind := by
  rw [Attributes.keys, known]
  rfl

theorem text_eq_normal (named : a.text .kind = form.kind.name) (described : a.Describes form)
    (pos : Position) (key : TextKey) :
    (nodeAttributes ⟨pos, form⟩).text key = a.normal.text key := by
  simp only [Attributes.normal, keys_of_kind known, known]
  -- A key that the form does not use is empty on both sides; at the others, `described` has put the
  -- attribute in the place of the form's own text, except for literal kinds.
  by_cases isKind : key = .kind
  · subst isKind
    simp [kind_nodeAttributes, named, normalText]
  cases form with
  | unit d =>
      obtain ⟨name, package, imports, classes⟩ := d
      obtain ⟨rfl, rfl, rfl⟩ := described
      cases key <;> first | contradiction | rfl
  | classDecl d =>
      obtain ⟨mods, annotations, name, fqn, members⟩ := d
      obtain ⟨_, rfl, rfl⟩ := described
      cases key <;> first | contradiction | rfl
  | method d =>
      obtain ⟨mods, annotations, result, name, params, body⟩ := d
      obtain ⟨_, rfl, rfl⟩ := described
      cases key <;> first | contradiction | rfl
  | varDecl d =>
      obtain ⟨mods, annotations, type, vars⟩ := d
      obtain ⟨_, rfl⟩ := described
      cases key <;> first | contradiction | rfl
  | literal lit =>
      obtain ⟨kind, value, source, type⟩ := lit
      obtain ⟨checked, rfl, rfl, rfl⟩ := described
      have name := name_of_checkedLiteral checked
      cases key <;> first | contradiction | rfl | exact name
  | ident name type field | fieldAccess x name type field =>
      obtain ⟨_, rfl, rfl⟩ := described
      cases key <;> first | contradiction | rfl
  | call recv name args type | binary op x y type =>
      obtain ⟨rfl, rfl⟩ := described
      cases key <;> first | contradiction | rfl
  | namedVar name init | annot name args | assign op target value | new className args
  | unary op x =>
      obtain rfl := described
      cases key <;> first | contradiction | rfl
  | block | exprStmt | «return» | ifStmt | parens =>
      cases key <;> first | contradiction | rfl

theorem words_eq_normal (described : a.Describes form) (pos : Position) (key : WordsKey) :
    (nodeAttributes ⟨pos, form⟩).words key = a.normal.words key := by
  simp only [Attributes.normal, keys_of_kind known]
  cases form with
  | unit d =>
      obtain ⟨name, package, imports, classes⟩ := d
      obtain ⟨_, _, rfl⟩ := described
      cases key <;> rfl
  | classDecl d | method d | varDecl d =>
      have mods := words_of_checkedMods described.1
      cases key <;> first | rfl | exact mods
  | _ => cases key <;> rfl

theorem field_eq_normal (described : a.Describes form) (pos : Position) :
    (nodeAttributes ⟨pos, form⟩).field = a.normal.field := by
  simp only [Attributes.normal, keys_of_kind known]
  cases form with
  | ident name type field | fieldAccess x name type field =>
      exact wireField_of_checkedField described.1
  | _ => rfl

end Attributes

theorem number_of_pos (a : Attributes) (form : Form) (key : NumberKey) :
    (nodeAttributes ⟨a.pos, form⟩).number key = a.number key := by
  cases form <;> cases key <;> rfl

/-! ## The keys for nodes -/

def Filling.key : Filling → Key
  | .list slot _ _ => .many slot
  | .one slot _ _ _ => .one slot

def Key.holdsNodes : Key → Bool
  | .many _ | .one _ => true
  | _ => false

/-- The keys of a kind that hold nodes are those that a reader goes through, in its order. -/
theorem filter_ownKeys (form : Form) :
    (ownKeys form.kind).filter Key.holdsNodes = (fillings form).map Filling.key := by
  cases form <;> rfl

theorem exists_filling {form : Form} {key : Key} (nodes : key.holdsNodes = true)
    (used : key ∈ ownKeys form.kind) : ∃ f ∈ fillings form, f.key = key := by
  have listed := List.mem_filter.mpr ⟨used, nodes⟩
  rw [filter_ownKeys] at listed
  exact List.mem_map.mp listed

section Unused
variable {child : NodeId → Option Wire} {pos : Position} {form : Form}

theorem many_filledWire_of_unused {slot : ListSlot} (unused : .many slot ∉ ownKeys form.kind) :
    (filledWire child ⟨pos, form⟩).many slot = [] := by
  cases form <;> cases slot <;> first | rfl | simp [ownKeys, Form.kind] at unused

theorem one_filledWire_of_unused {slot : Slot} (unused : .one slot ∉ ownKeys form.kind) :
    (filledWire child ⟨pos, form⟩).one slot = none := by
  cases form <;> cases slot <;> first | rfl | simp [ownKeys, Form.kind] at unused

end Unused

/-- One wire form has under a key the normal form of what another has there. -/
def Filling.Normalizes (w w' : Wire) : Filling → Prop
  | .list slot _ _ => w'.many slot = normalList (w.many slot)
  | .one slot _ _ _ => w'.one slot = normalOption (w.one slot)

/-- The wire form that is written for a node is the normal form of the one that was read, if this
holds of the attributes and under each key. -/
theorem filledWire_eq_normal {w : Wire} {form : Form} {child : NodeId → Option Wire}
    (named : w.attrs.text .kind = form.kind.name) (described : w.attrs.Describes form)
    (each : ∀ f ∈ fillings form, f.Normalizes w (filledWire child ⟨w.attrs.pos, form⟩)) :
    filledWire child ⟨w.attrs.pos, form⟩ = w.normal := by
  have known : w.attrs.kind? = some form.kind := by
    rw [Attributes.kind?, named, Kind.ofName?_name]
  refine Wire.ext_value fun key => ?_
  cases key with
  | text key =>
      rw [Wire.value, Wire.value, attrs_filledWire, Wire.attrs_normal,
        text_eq_normal known named described]
  | number key =>
      rw [Wire.value, Wire.value, attrs_filledWire, Wire.attrs_normal, number_of_pos]
      rfl
  | words key =>
      rw [Wire.value, Wire.value, attrs_filledWire, Wire.attrs_normal,
        words_eq_normal known described]
  | field =>
      rw [Wire.value, Wire.value, attrs_filledWire, Wire.attrs_normal,
        field_eq_normal known described]
  | many slot =>
      rw [Wire.value, Wire.value, Wire.many_normal, keys_of_kind known]
      by_cases used : .many slot ∈ ownKeys form.kind
      · obtain ⟨f, filled, same⟩ := exists_filling rfl used
        have normalizes := each f filled
        cases f with
        | list slot' kinds ids =>
            obtain rfl := Key.many.inj same
            rw [if_pos (by simp [used]), show _ = _ from normalizes]
        | one => contradiction
      · rw [if_neg (by simp [used]), many_filledWire_of_unused used]
  | one slot =>
      rw [Wire.value, Wire.value, Wire.one_normal, keys_of_kind known]
      by_cases used : .one slot ∈ ownKeys form.kind
      · obtain ⟨f, filled, same⟩ := exists_filling rfl used
        have normalizes := each f filled
        cases f with
        | list => contradiction
        | one slot' kinds required id =>
            obtain rfl := Key.one.inj same
            rw [if_pos (by simp [used]), show _ = _ from normalizes]
      · rw [if_neg (by simp [used]), one_filledWire_of_unused used]

/-! ## What is written for what was read -/

def WritesNormal (whole : Tree) (w : Wire) (_ : List Kind) (_ : Tree) (id : NodeId) (t' : Tree) :
    Prop :=
  Within t' whole → ∀ depth w', wireNode whole depth id = .ok (some w') → w' = w.normal

def WritesNormalList (whole : Tree) (ws : List (Option Wire)) (_ : List Kind) (_ : Tree)
    (ids : List NodeId) (t' : Tree) : Prop :=
  Within t' whole → ∀ depth child, (∀ x ∈ ids, wireNode whole depth x = .ok (child x)) →
    ids.map child = normalList ws

theorem Filling.Adds.normalizes {whole : Tree} {w w' : Wire} {depth : Nat}
    {child : NodeId → Option Wire} {f : Filling} {t u : Tree}
    (lists : ∀ slot kinds v ids v', addList (w.many slot) kinds v = .ok (ids, v') →
      WritesNormalList whole (w.many slot) kinds v ids v')
    (singles : ∀ slot c kinds v x v', w.one slot = some c → addNode c kinds v = .ok (x, v') →
      WritesNormal whole c kinds v x v')
    (each : ∀ d ∈ f.demands, wireNode whole depth d.id = .ok (child d.id))
    (written : f.Written w' child) (within : Within u whole) (adds : f.Adds w t u) :
    f.Normalizes w w' := by
  cases f with
  | list slot kinds ids =>
      have listed : ∀ x ∈ ids, wireNode whole depth x = .ok (child x) :=
        fun x member => each (.must kinds x) (List.mem_map_of_mem member)
      exact (show w'.many slot = ids.map child from written).trans
        (lists slot kinds t ids u adds within depth child listed)
  | one slot kinds required id =>
      have single : wireNode whole depth id = .ok (child id) :=
        each ⟨id, kinds, required⟩ (by simp [Filling.demands])
      rw [Filling.Normalizes, show w'.one slot = child id from written]
      rcases addOption_cases adds.1 with ⟨absent, rfl, rfl⟩ | ⟨c, present, run⟩
      · rw [wireNode_zero] at single
        rw [← Except.ok.inj single, absent, normalOption]
      · obtain ⟨n, held⟩ := holds_of_addNode run
        obtain ⟨c', made⟩ := present_of_wireNode (within id n held) single
        rw [made] at single ⊢
        rw [present, normalOption, singles slot c kinds t id u present run within depth c' single]

theorem AddsAll.each {whole : Tree} {w : Wire} {P : Filling → Prop} {fs : List Filling}
    {t u : Tree} (step : ∀ f ∈ fs, ∀ v v', Within v' whole → f.Adds w v v' → P f)
    (within : Within u whole) (all : AddsAll w t fs u) : ∀ f ∈ fs, P f := by
  induction all with
  | nil => simp
  | @cons t v u f rest first later ih =>
      have head := step f (by simp) t v (later.within within) first
      exact List.forall_mem_cons.mpr
        ⟨head, ih (fun g member => step g (by simp [member])) within⟩

theorem hereditary_writesNormal (whole : Tree) :
    Hereditary (WritesNormal whole) (WritesNormalList whole) where
  nil allowed t := by
    intro within depth child each
    rfl
  skip written := written
  cons {w rest allowed t id u ids t'} added first more later := by
    intro within depth child each
    obtain ⟨here, rest⟩ := List.forall_mem_cons.mp each
    have inside := (supplies_of_addList more).within within
    obtain ⟨n, held⟩ := holds_of_addNode added
    obtain ⟨c, made⟩ := present_of_wireNode (inside id n held) here
    rw [made] at here
    rw [List.map_cons, made, first inside depth c here, normalList,
      later within depth child rest]
  node {w allowed t form u} added lists singles := by
    intro within depth w' run
    have here : whole.Holds (u.size + 1) ⟨w.attrs.pos, form⟩ :=
      within _ _ (u.holds_push_new _)
    cases depth with
    | zero => contradiction
    | succ depth =>
        obtain ⟨child, each, made⟩ := wireNode_inv here run
        obtain rfl := Option.some.inj made
        have inside : Within u whole := within.of_push
        refine filledWire_eq_normal (checkedKind_iff.mp added.kind).1 added.describes
          (added.places.each (fun f member v v' => ?_) inside)
        refine Filling.Adds.normalizes lists singles (fun d demanded => each d.id ?_)
          (written_filledWire child _ form f member)
        exact place_of_filling member demanded

theorem unitOfTree_eq_normal {u : Option Wire} {t : Tree} (success : treeOfUnit u = .ok t) :
    unitOfTree t = .ok (u.map Wire.normal) := by
  have sound : t.root = 0 ∨ t.Conforms := by
    by_cases absent : t.root = 0
    · exact .inl absent
    · exact .inr (conforms_of_treeOfUnit success absent)
  obtain ⟨u', written⟩ := exists_unitOfTree sound
  obtain ⟨built, root, added, rfl⟩ := treeOfUnit_eq success
  rw [written]
  rw [unitOfTree] at written
  rcases addOption_cases added with ⟨rfl, rfl, _⟩ | ⟨w, rfl, run⟩
  · rw [wireNode_zero] at written
    rw [← Except.ok.inj written]
    rfl
  · have within : Within built { built with root } := fun _ _ held => held
    obtain ⟨n, held⟩ := holds_of_addNode run
    obtain ⟨w', rfl⟩ := present_of_wireNode (within root n held) written
    rw [(hereditary_writesNormal _).addNode w [.unit] {} root built run within _ w' written]
    rfl

/-- Attributes keep what others have at the keys that these use: numbers and imports as they are,
texts unless the assignment operator or the literal kind is missing, and field symbols except for
the order of their modifiers. -/
structure Attributes.Keep (b a : Attributes) : Prop where
  number : b.number = a.number
  text : ∀ key, .text key ∈ a.keys → b.text key = a.text key ∨
    a.text key = "" ∧ (a.text .kind = "assign" ∧ key = .op ∧ b.text key = "=" ∨
      a.text .kind = "literal" ∧ key = .lit ∧ b.text key = "string")
  imports : .words .imports ∈ a.keys → b.words .imports = a.words .imports
  field : .field ∈ a.keys → b.field.map (fun f => (f.owner, f.name, f.type)) =
    a.field.map fun f => (f.owner, f.name, f.type)

theorem Attributes.name_of_kind? {a : Attributes} {kind : Kind} (known : a.kind? = some kind) :
    a.text .kind = kind.name := by
  have same : kind.name = a.text .kind := by simpa using List.find?_some known
  exact same.symm

theorem Attributes.keep_normal (a : Attributes) : a.normal.Keep a where
  number := rfl
  text key used := by
    simp only [normal, used, if_true]
    unfold normalText
    split
    · rename_i known
      split
      · rename_i missing
        exact .inr ⟨missing, .inl ⟨name_of_kind? known, rfl, rfl⟩⟩
      · exact .inl rfl
    · rename_i known
      split
      · rename_i missing
        exact .inr ⟨missing, .inr ⟨name_of_kind? known, rfl, rfl⟩⟩
      · exact .inl rfl
    · exact .inl rfl
  imports used := by simp [normal, used, normalWords]
  field used := by simp [normal, used, Function.comp_def, WireField.normal]

/-- Reading a unit and writing it again gives its normal form.  Taking the normal form again changes
nothing, and of what a node uses, it keeps every number and every text that is given. -/
theorem written_in_normal_form {u : Option Wire} {t : Tree} (accepted : treeOfUnit u = .ok t) :
    unitOfTree t = .ok (u.map Wire.normal) ∧ (∀ w : Wire, w.normal.normal = w.normal) ∧
      ∀ w : Wire, w.normal.attrs.Keep w.attrs := by
  refine ⟨unitOfTree_eq_normal accepted, Wire.normal_normal, fun w => ?_⟩
  rw [w.attrs_normal]
  exact w.attrs.keep_normal

/-- A class with a value that no class has, repeated modifiers and a missing member. -/
def untidyClass : Wire :=
  .node
    { text := fun
        | .kind => "class"
        | .name => "A"
        | .value => "stray"
        | _ => ""
      number := fun _ => 3
      words := fun
        | .mods => ["final", "public", "final"]
        | .imports => ["a.B"] }
    (fun
      | .members => [none]
      | _ => [])
    fun _ => none

def untidyUnit : Wire :=
  .node { text := fun key => if key = .kind then "unit" else "" }
    (fun slot => if slot = .classes then [none, some untidyClass, none] else []) fun _ => none

theorem untidyUnit_written :
    ∃ t, treeOfUnit (some untidyUnit) = .ok t ∧ unitOfTree t = .ok (some untidyUnit.normal) ∧
      untidyUnit.normal.many .classes = [some untidyClass.normal] ∧
      untidyClass.normal.attrs.words .mods = ["public", "final"] ∧
      untidyClass.normal.attrs.words .imports = [] ∧
      untidyClass.normal.attrs.text .value = "" ∧
      untidyClass.normal.attrs.number .line = 3 ∧ untidyClass.normal.many .members = [] := by
  let read : Tree :=
    { root := 2
      nodes := #[
        some { pos := ⟨3, 3⟩, form := .classDecl { mods := .ofList [.pub, .final], name := "A" } },
        some { form := .unit { classes := [1] } }] }
  have accepted : treeOfUnit (some untidyUnit) = .ok read := eq_ok_of_toOption (by decide +kernel)
  obtain ⟨written, _, keeps⟩ := written_in_normal_form accepted
  exact ⟨read, accepted, written, rfl, by decide +kernel, by decide +kernel, by decide +kernel,
    congrFun (keeps untidyClass).number .line, rfl⟩

end LiteralHoist.Document
