import LiteralHoist.Proofs.Document.Decoded
import LiteralHoist.Proofs.Document.Version
import LiteralHoist.Proofs.Source.Words

/-!
# The grammar of documents

Each kind of nodes uses some keys, and under each of them it has nodes of certain kinds.  A node of
the wire form conforms if its own keys are in order and the nodes under the keys that its kind uses
conform; what stands under other keys does not matter.

A wire form becomes a document exactly if its version is a version 1 and its units conform.  The
reader stops at the first violation, so for one direction all of a conforming node has to be added
step by step, and for the other nothing that the grammar asks for may have been passed over.
-/

set_option autoImplicit false

namespace LiteralHoist.Document

open LiteralHoist.Source

/-! ## The grammar -/

/-- What may stand under a key. -/
inductive Rule where
  | list (slot : ListSlot) (allowed : List Kind)
  | one (slot : Slot) (allowed : List Kind) (required : Bool)

def rules : Kind → List Rule
  | .unit => [.list .classes [.classDecl]]
  | .classDecl => [.list .annotations [.annot], .list .members [.varDecl, .method, .classDecl]]
  | .method =>
    [.list .annotations [.annot], .list .params [.varDecl], .one .body [.block] false]
  | .varDecl => [.list .annotations [.annot], .list .vars [.namedVar]]
  | .namedVar => [.one .init Kind.expressions false]
  | .annot => [.list .args (.annot :: Kind.expressions)]
  | .block => [.list .stmts Kind.statements]
  | .exprStmt | .fieldAccess | .parens | .unary => [.one .x Kind.expressions true]
  | .return => [.one .x Kind.expressions false]
  | .ifStmt =>
    [.one .cond Kind.expressions true, .one .thenBranch Kind.statements true,
      .one .elseBranch Kind.statements false]
  | .assign => [.one .lhs Kind.expressions true, .one .rhs Kind.expressions true]
  | .literal | .ident => []
  | .call => [.one .recv Kind.expressions false, .list .args Kind.expressions]
  | .new => [.list .args Kind.expressions]
  | .binary => [.one .x Kind.expressions true, .one .y Kind.expressions true]

def IsModifier (word : Text) : Prop :=
  ∃ m : Modifier, m.word = word

structure Attributes.Suit (a : Attributes) (kind : Kind) : Prop where
  named : a.text .kind = kind.name
  mods : ∀ word ∈ a.words .mods, IsModifier word
  field : kind = .ident ∨ kind = .fieldAccess → ∀ f, a.field = some f →
    ∀ word ∈ f.mods, IsModifier word
  literal : kind = .literal → a.text .lit = "" ∨ ∃ k : LiteralKind, a.text .lit = k.name

/-- A node conforms to the grammar and is of one of the allowed kinds. -/
inductive Wire.Conforms : Wire → List Kind → Prop where
  | node {w : Wire} {allowed : List Kind} {kind : Kind} (fits : kind ∈ allowed)
      (attrs : w.attrs.Suit kind) (vars : kind = .varDecl → w.many .vars ≠ [])
      (required : ∀ slot kinds, .one slot kinds true ∈ rules kind → w.one slot ≠ none)
      (lists : ∀ slot kinds, .list slot kinds ∈ rules kind →
        ∀ c, some c ∈ w.many slot → c.Conforms kinds)
      (singles : ∀ slot kinds needed, .one slot kinds needed ∈ rules kind →
        ∀ c, w.one slot = some c → c.Conforms kinds) : Conforms w allowed

/-! ## Attributes -/

theorem exists_ofWords_iff {words : List Text} :
    (∃ mods, Modifiers.ofWords words = .ok mods) ↔ ∀ word ∈ words, IsModifier word := by
  have general : ∀ (words : List Text) (a : Modifiers),
      (∃ mods, a.addWords words = .ok mods) ↔ ∀ word ∈ words, IsModifier word := by
    intro words
    induction words with
    | nil => exact fun a => ⟨by simp, fun _ => ⟨a, rfl⟩⟩
    | cons word rest ih =>
        intro a
        rw [List.forall_mem_cons, Modifiers.addWords]
        cases known : Modifier.ofWord? word with
        | none =>
            have unknown : ¬ IsModifier word := by
              rintro ⟨m, rfl⟩
              simp [Modifier.ofWord?_word] at known
            simp [unknown]
        | some m =>
            have isModifier : IsModifier word := ⟨m, by simpa using List.find?_some known⟩
            simp only [isModifier, true_and]
            exact ih (a.insert m)
  exact general words .none

theorem exists_checkedMods_iff {a : Attributes} {words : List Text} :
    (∃ mods, a.checkedMods words = .ok mods) ↔ ∀ word ∈ words, IsModifier word := by
  rw [← exists_ofWords_iff, Attributes.checkedMods]
  cases Modifiers.ofWords words with
  | error unknown => simp [Attributes.refuse]
  | ok mods => simp

theorem exists_checkedField_iff {a : Attributes} :
    (∃ field, a.checkedField = .ok field) ↔
      ∀ f, a.field = some f → ∀ word ∈ f.mods, IsModifier word := by
  rw [Attributes.checkedField]
  cases a.field with
  | none => simp
  | some f =>
      simp only [Option.some.injEq, forall_eq']
      rw [← exists_checkedMods_iff (a := a)]
      cases a.checkedMods f.mods with
      | error e => simp [Bind.bind, Except.bind]
      | ok mods => simp [ok_bind, pure_eq_ok]

theorem exists_checkedLiteral_iff {a : Attributes} :
    (∃ kind, a.checkedLiteral = .ok kind) ↔
      a.text .lit = "" ∨ ∃ k : LiteralKind, a.text .lit = k.name := by
  rw [Attributes.checkedLiteral]
  by_cases empty : a.text .lit = ""
  · simp [empty]
  · simp only [empty, false_or]
    cases known : LiteralKind.ofName? (a.text .lit) with
    | none =>
        have unknown : ¬ ∃ k : LiteralKind, a.text .lit = k.name := by
          rintro ⟨k, named⟩
          simp [named, LiteralKind.ofName?_name] at known
        simp [unknown, Attributes.refuse]
    | some k =>
        have named : k.name = a.text .lit := by simpa using List.find?_some known
        simp [← named]

theorem checkedKind_iff {a : Attributes} {allowed : List Kind} {kind : Kind} :
    a.checkedKind allowed = .ok kind ↔ a.text .kind = kind.name ∧ kind ∈ allowed := by
  constructor
  · intro checked
    refine ⟨?_, checkedKind_mem checked⟩
    rw [Attributes.checkedKind] at checked
    cases known : Kind.ofName? (a.text .kind) with
    | none => simp [known, Attributes.refuse] at checked
    | some found =>
        have named : found.name = a.text .kind := by simpa using List.find?_some known
        simp only [known] at checked
        split at checked
        · rw [← Except.ok.inj checked, named]
        · simp [Attributes.refuse] at checked
  · rintro ⟨named, fits⟩
    rw [Attributes.checkedKind, named, Kind.ofName?_name]
    exact if_pos fits

/-! ## What is accepted conforms -/

def Filling.rule : Filling → Rule
  | .list slot allowed _ => .list slot allowed
  | .one slot allowed required _ => .one slot allowed required

theorem map_rule_fillings (form : Form) : (fillings form).map Filling.rule = rules form.kind := by
  cases form <;> rfl

theorem Added.suit {w : Wire} {allowed : List Kind} {t u : Tree} {form : Form}
    (added : Added w allowed t form u) : w.attrs.Suit form.kind := by
  refine ⟨(checkedKind_iff.mp added.kind).1, exists_checkedMods_iff.mp added.mods, ?_, ?_⟩
  · intro symbolic
    have described := added.describes
    refine exists_checkedField_iff.mp ?_
    cases form with
    | ident name type field | fieldAccess x name type field => exact ⟨field, described.1⟩
    | _ => simp [Form.kind] at symbolic
  · intro literal
    have described := added.describes
    refine exists_checkedLiteral_iff.mp ?_
    cases form with
    | literal lit => exact ⟨lit.kind, described.1⟩
    | _ => contradiction

theorem hereditary_conforms :
    Hereditary (fun w allowed _ _ _ => w.Conforms allowed)
      (fun ws allowed _ _ _ => ∀ c, some c ∈ ws → c.Conforms allowed) where
  nil _ _ := by simp
  skip conform c member := conform c (by simpa using member)
  cons _ first _ later c member := by
    rcases List.mem_cons.mp member with here | there
    · exact Option.some.inj here ▸ first
    · exact later c there
  node {w allowed t form u} added lists singles := by
    have adds : ∀ rule ∈ rules form.kind, ∃ (f : Filling) (v v' : Tree),
        f.rule = rule ∧ f.Adds w v v' := by
      intro rule member
      rw [← map_rule_fillings, List.mem_map] at member
      obtain ⟨f, filled, same⟩ := member
      obtain ⟨v, v', run⟩ := added.places.adds f filled
      exact ⟨f, v, v', same, run⟩
    refine .node (checkedKind_iff.mp added.kind).2 added.suit added.vars ?_ ?_ ?_
    · intro slot kinds member
      obtain ⟨f, v, v', same, run⟩ := adds _ member
      cases f with
      | list => contradiction
      | one slot' kinds' required x =>
          obtain ⟨rfl, rfl, rfl⟩ := Rule.one.inj same
          exact Option.isSome_iff_ne_none.mp (run.2 rfl)
    · intro slot kinds member
      obtain ⟨f, v, v', same, run⟩ := adds _ member
      cases f with
      | one => contradiction
      | list slot' kinds' ids =>
          obtain ⟨rfl, rfl⟩ := Rule.list.inj same
          exact lists _ _ v ids v' run
    · intro slot kinds needed member c present
      obtain ⟨f, v, v', same, run⟩ := adds _ member
      cases f with
      | list => contradiction
      | one slot' kinds' required x =>
          obtain ⟨rfl, rfl, rfl⟩ := Rule.one.inj same
          rcases addOption_cases run.1 with ⟨absent, _⟩ | ⟨c', present', added⟩
          · rw [absent] at present
            contradiction
          · obtain rfl := Option.some.inj (present'.symm.trans present)
            exact singles _ _ _ v x v' present added

/-! ## What conforms is accepted -/

def Succeeds {α : Type} (m : Adding α) : Prop :=
  ∀ t, ∃ a t', m t = .ok (a, t')

theorem Succeeds.bind {α β : Type} {m : Adding α} {k : α → Adding β} (first : Succeeds m)
    (rest : ∀ a, Succeeds (k a)) : Succeeds (m >>= k) := by
  intro t
  obtain ⟨a, u, run⟩ := first t
  rw [adding_bind_eq run]
  exact rest a u

theorem Succeeds.lift {α β : Type} {x : Except NodeError α} {a : α} {k : α → Adding β}
    (success : x = .ok a) (rest : Succeeds (k a)) : Succeeds (liftM x >>= k) := by
  subst success
  exact rest

theorem Succeeds.append (pos : Position) (form : Form) :
    Succeeds (pure form >>= fun form => append ⟨pos, form⟩) :=
  fun _ => ⟨_, _, rfl⟩

theorem Succeeds.list {kinds : List Kind} {ws : List (Option Wire)}
    (each : ∀ c, some c ∈ ws → Succeeds (addNode c kinds)) : Succeeds (addList ws kinds) := by
  induction ws with
  | nil => exact fun t => ⟨[], t, rfl⟩
  | cons w rest ih =>
      have later := ih fun c member => each c (by simp [member])
      cases w with
      | none => simpa only [addList] using later
      | some w =>
          rw [addList]
          exact (each w (by simp)).bind fun id => later.bind fun ids t => ⟨_, t, rfl⟩

theorem Succeeds.child {kinds : List Kind} {w : Option Wire}
    (each : ∀ c, w = some c → Succeeds (addNode c kinds)) : Succeeds (addOption w kinds) := by
  cases w with
  | none => exact fun t => ⟨0, t, rfl⟩
  | some w =>
      rw [addOption]
      exact each w rfl

theorem Succeeds.must {kinds : List Kind} {a : Attributes} {kind : Kind} {slot : Slot}
    {w : Option Wire} (present : w ≠ none)
    (each : ∀ c, w = some c → Succeeds (addNode c kinds)) :
    Succeeds (liftM (a.require kind slot w) >>= fun _ => addOption w kinds) := by
  obtain ⟨c, rfl⟩ := Option.ne_none_iff_exists'.mp present
  exact Succeeds.lift rfl (.child each)

/-- A node that conforms is added to every tree. -/
theorem succeeds_of_conforms {w : Wire} {allowed : List Kind} (conforms : w.Conforms allowed) :
    Succeeds (addNode w allowed) := by
  induction conforms with
  | @node w allowed kind fits suit vars required _ _ lists singles =>
      obtain ⟨mods, modified⟩ := exists_checkedMods_iff (a := w.attrs) |>.mpr suit.mods
      have list : ∀ slot kinds, .list slot kinds ∈ rules kind →
          Succeeds (addList (w.many slot) kinds) :=
        fun slot kinds member => .list (lists slot kinds member)
      have child : ∀ slot kinds, .one slot kinds false ∈ rules kind →
          Succeeds (addOption (w.one slot) kinds) :=
        fun slot kinds member => .child (singles slot kinds false member)
      have must : ∀ slot kinds, .one slot kinds true ∈ rules kind →
          Succeeds (liftM (w.attrs.require kind slot (w.one slot)) >>= fun _ =>
            addOption (w.one slot) kinds) :=
        fun slot kinds member =>
          .must (required slot kinds member) (singles slot kinds true member)
      obtain ⟨attrs, many, one⟩ := w
      rw [addNode]
      refine .lift (checkedKind_iff.mpr ⟨suit.named, fits⟩) (.lift modified ?_)
      cases kind with
      | unit => exact (list .classes _ (by simp [rules])).bind fun _ => .append _ _
      | classDecl =>
          exact (list .annotations _ (by simp [rules])).bind fun _ =>
            (list .members _ (by simp [rules, Kind.members])).bind fun _ => .append _ _
      | method =>
          exact (list .annotations _ (by simp [rules])).bind fun _ =>
            (list .params _ (by simp [rules])).bind fun _ =>
            (child .body _ (by simp [rules])).bind fun _ => .append _ _
      | varDecl =>
          have declared : ¬ (many .vars).isEmpty = true := by simpa [Wire.many] using vars rfl
          dsimp only
          rw [if_neg declared]
          exact (list .annotations _ (by simp [rules])).bind fun _ =>
            (list .vars _ (by simp [rules])).bind fun _ => .append _ _
      | namedVar => exact (child .init _ (by simp [rules])).bind fun _ => .append _ _
      | annot => exact (list .args _ (by simp [rules, Kind.arguments])).bind fun _ => .append _ _
      | block => exact (list .stmts _ (by simp [rules])).bind fun _ => .append _ _
      | exprStmt | parens | unary =>
          exact (must .x _ (by simp [rules])).bind fun _ => .append _ _
      | «return» => exact (child .x _ (by simp [rules])).bind fun _ => .append _ _
      | ifStmt =>
          exact (must .cond _ (by simp [rules])).bind fun _ =>
            (must .thenBranch _ (by simp [rules])).bind fun _ =>
            (child .elseBranch _ (by simp [rules])).bind fun _ => .append _ _
      | assign =>
          exact (must .lhs _ (by simp [rules])).bind fun _ =>
            (must .rhs _ (by simp [rules])).bind fun _ => .append _ _
      | literal =>
          obtain ⟨lit, known⟩ := exists_checkedLiteral_iff.mpr (suit.literal rfl)
          exact .lift known (.append _ _)
      | ident =>
          obtain ⟨field, known⟩ := exists_checkedField_iff.mpr (suit.field (.inl rfl))
          exact .lift known (.append _ _)
      | fieldAccess =>
          obtain ⟨field, known⟩ := exists_checkedField_iff.mpr (suit.field (.inr rfl))
          exact .lift known ((must .x _ (by simp [rules])).bind fun _ => .append _ _)
      | call =>
          exact (child .recv _ (by simp [rules])).bind fun _ =>
            (list .args _ (by simp [rules])).bind fun _ => .append _ _
      | new => exact (list .args _ (by simp [rules])).bind fun _ => .append _ _
      | binary =>
          exact (must .x _ (by simp [rules])).bind fun _ =>
            (must .y _ (by simp [rules])).bind fun _ => .append _ _

/-! ## Units and documents -/

theorem exists_treeOfUnit_iff {u : Option Wire} :
    (∃ t, treeOfUnit u = .ok t) ↔ ∀ w, u = some w → w.Conforms [.unit] := by
  constructor
  · rintro ⟨t, success⟩ w rfl
    obtain ⟨built, root, added, _⟩ := treeOfUnit_eq success
    rw [addOption] at added
    exact hereditary_conforms.addNode w [.unit] {} root built added
  · intro conforms
    have succeeds : Succeeds (addOption u [.unit]) :=
      .child fun c present => succeeds_of_conforms (conforms c present)
    obtain ⟨root, built, added⟩ := succeeds {}
    exact ⟨{ built with root }, by rw [treeOfUnit, added]; rfl⟩

theorem exists_forall₂_iff {α β : Type} {R : α → β → Prop} {xs : List α} :
    (∃ ys, List.Forall₂ R xs ys) ↔ ∀ x ∈ xs, ∃ y, R x y := by
  induction xs with
  | nil => simp
  | cons x rest ih =>
      rw [List.forall_mem_cons, ← ih]
      constructor
      · rintro ⟨_, related⟩
        cases related with
        | cons first later => exact ⟨⟨_, first⟩, _, later⟩
      · rintro ⟨⟨y, first⟩, ys, later⟩
        exact ⟨y :: ys, .cons first later⟩

/-- A wire form is accepted exactly if its version is a version 1 and each of its units is missing
or conforms to the grammar. -/
theorem accepted_iff_conforms (d : WireDocument) :
    (∃ doc, Document.ofWire d = .ok doc) ↔
      Version.Semantic ['1'] d.version.chars ∧ ∀ w, some w ∈ d.units → w.Conforms [.unit] := by
  have version : Version.major? d.version = some "1" ↔ Version.Semantic ['1'] d.version.chars :=
    Version.major?_iff
  have units : (∃ trees, List.Forall₂ (fun u t => treeOfUnit u = .ok t) d.units trees) ↔
      ∀ w, some w ∈ d.units → w.Conforms [.unit] := by
    rw [exists_forall₂_iff]
    simp only [exists_treeOfUnit_iff]
    exact ⟨fun each w member => each _ member w rfl, fun each u member w same =>
      each w (same ▸ member)⟩
  rw [← version, ← units]
  constructor
  · rintro ⟨doc, success⟩
    obtain ⟨supported, _, trees⟩ := ofWire_iff.mp success
    exact ⟨supported, doc.trees, trees⟩
  · rintro ⟨supported, trees, made⟩
    exact ⟨⟨d.version, trees⟩, ofWire_iff.mpr ⟨supported, rfl, made⟩⟩

end LiteralHoist.Document
