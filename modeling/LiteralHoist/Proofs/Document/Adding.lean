import LiteralHoist.Document.Decode
import LiteralHoist.Proofs.Source.Arena

/-!
# Adding nodes

What adding a node of the wire form does, said once for all kinds of nodes: the attributes describe
a form, what the form has under each key is added in source order, and the node is appended.  This
holds in both directions, so that later proofs go over the keys of a form and not over the kinds of
nodes.
-/

set_option autoImplicit false

namespace LiteralHoist.Document

open LiteralHoist.Source

section Steps
variable {α β : Type}

theorem adding_bind {m : Adding α} {k : α → Adding β} {t t'' : Tree} {b : β}
    (run : (m >>= k) t = .ok (b, t'')) :
    ∃ a t', m t = .ok (a, t') ∧ k a t' = .ok (b, t'') := by
  obtain ⟨⟨a, t'⟩, first, second⟩ := bind_eq_ok run
  exact ⟨a, t', first, second⟩

theorem adding_lift {x : Except NodeError α} {t t' : Tree} {a : α}
    (run : (liftM x : Adding α) t = .ok (a, t')) : x = .ok a ∧ t' = t := by
  cases x with
  | error e => contradiction
  | ok b =>
      have pair : (b, t) = (a, t') := Except.ok.inj run
      simp only [Prod.mk.injEq] at pair
      exact ⟨by rw [pair.1], pair.2.symm⟩

theorem adding_bind_eq {m : Adding α} {t u : Tree} {a : α} (first : m t = .ok (a, u))
    (k : α → Adding β) : (m >>= k) t = k a u := by
  change (m t >>= fun p => k p.1 p.2) = k a u
  rw [first, ok_bind]

end Steps

/-! ## The keys of a form -/

/-- What a form has under a key of its wire form. -/
inductive Filling where
  | list (slot : ListSlot) (allowed : List Kind) (ids : List NodeId)
  | one (slot : Slot) (allowed : List Kind) (required : Bool) (id : NodeId)

def fillings : Form → List Filling
  | .unit d => [.list .classes [.classDecl] d.classes]
  | .classDecl d =>
    [.list .annotations [.annot] d.annotations, .list .members Kind.members d.members]
  | .method d =>
    [.list .annotations [.annot] d.annotations, .list .params [.varDecl] d.params,
      .one .body [.block] false d.body]
  | .varDecl d => [.list .annotations [.annot] d.annotations, .list .vars [.namedVar] d.vars]
  | .namedVar _ init => [.one .init Kind.expressions false init]
  | .annot _ args => [.list .args Kind.arguments args]
  | .block stmts => [.list .stmts Kind.statements stmts]
  | .exprStmt x => [.one .x Kind.expressions true x]
  | .return x => [.one .x Kind.expressions false x]
  | .ifStmt c a b =>
    [.one .cond Kind.expressions true c, .one .thenBranch Kind.statements true a,
      .one .elseBranch Kind.statements false b]
  | .assign _ target value =>
    [.one .lhs Kind.expressions true target, .one .rhs Kind.expressions true value]
  | .literal _ | .ident _ _ _ => []
  | .fieldAccess x _ _ _ => [.one .x Kind.expressions true x]
  | .call recv _ args _ =>
    [.one .recv Kind.expressions false recv, .list .args Kind.expressions args]
  | .new _ args => [.list .args Kind.expressions args]
  | .parens x => [.one .x Kind.expressions true x]
  | .binary _ x y _ => [.one .x Kind.expressions true x, .one .y Kind.expressions true y]
  | .unary _ x => [.one .x Kind.expressions true x]

/-- What a wire form has under a key is added to a tree. -/
def Filling.Adds (w : Wire) (t t' : Tree) : Filling → Prop
  | .list slot allowed ids => addList (w.many slot) allowed t = .ok (ids, t')
  | .one slot allowed required id =>
    addOption (w.one slot) allowed t = .ok (id, t') ∧ (required = true → (w.one slot).isSome = true)

inductive AddsAll (w : Wire) : Tree → List Filling → Tree → Prop where
  | nil {t : Tree} : AddsAll w t [] t
  | cons {t u v : Tree} {f : Filling} {rest : List Filling} (first : f.Adds w t u)
      (later : AddsAll w u rest v) : AddsAll w t (f :: rest) v

theorem AddsAll.snoc {w : Wire} {t u v : Tree} {fs : List Filling} {f : Filling}
    (before : AddsAll w t fs u) (last : f.Adds w u v) : AddsAll w t (fs ++ [f]) v := by
  induction before with
  | nil => exact .cons last .nil
  | cons first _ ih => exact .cons first (ih last)

theorem AddsAll.adds {w : Wire} {t u : Tree} {fs : List Filling} (all : AddsAll w t fs u) :
    ∀ f ∈ fs, ∃ v v', f.Adds w v v' := by
  induction all with
  | nil => simp
  | cons first _ ih => exact List.forall_mem_cons.mpr ⟨⟨_, _, first⟩, ih⟩

/-- Attributes say what a form is, apart from its kind and what it has under the keys for nodes. -/
def Attributes.Describes (a : Attributes) : Form → Prop
  | .unit d => d.name = a.text .name ∧ d.package = a.text .package ∧ d.imports = a.words .imports
  | .classDecl d =>
    a.checkedMods (a.words .mods) = .ok d.mods ∧ d.name = a.text .name ∧ d.fqn = a.text .fqn
  | .method d =>
    a.checkedMods (a.words .mods) = .ok d.mods ∧ d.result = a.text .result ∧ d.name = a.text .name
  | .varDecl d => a.checkedMods (a.words .mods) = .ok d.mods ∧ d.type = a.text .type
  | .namedVar name _ | .annot name _ => name = a.text .name
  | .block _ | .exprStmt _ | .return _ | .ifStmt _ _ _ | .parens _ => True
  | .assign op _ _ => op = if a.text .op = "" then Text.ofString "=" else a.text .op
  | .literal lit =>
    a.checkedLiteral = .ok lit.kind ∧ lit.value = a.text .value ∧ lit.source = a.text .source ∧
      lit.type = a.text .type
  | .ident name type field | .fieldAccess _ name type field =>
    a.checkedField = .ok field ∧ name = a.text .name ∧ type = a.text .type
  | .call _ name _ type => name = a.text .name ∧ type = a.text .type
  | .new className _ => className = a.text .className
  | .binary op _ _ type => op = a.text .op ∧ type = a.text .type
  | .unary op _ => op = a.text .op

structure Added (w : Wire) (allowed : List Kind) (t : Tree) (form : Form) (u : Tree) : Prop where
  kind : w.attrs.checkedKind allowed = .ok form.kind
  mods : ∃ mods, w.attrs.checkedMods (w.attrs.words .mods) = .ok mods
  describes : w.attrs.Describes form
  vars : form.kind = .varDecl → w.many .vars ≠ []
  places : AddsAll w t (fillings form) u

/-! ## What a run of the reader adds -/

def Ends (w : Wire) (allowed : List Kind) (t : Tree) (fs : List Filling) (m : Adding NodeId) :
    Prop :=
  ∀ u id t', AddsAll w t fs u → m u = .ok (id, t') →
    ∃ form v, Added w allowed t form v ∧ id = v.size + 1 ∧ t' = (v.push ⟨w.attrs.pos, form⟩).1

section Ends
variable {w : Wire} {allowed : List Kind} {t : Tree} {fs : List Filling}

theorem Ends.lift {α : Type} {x : Except NodeError α} {k : α → Adding NodeId}
    (rest : ∀ a, x = .ok a → Ends w allowed t fs (k a)) : Ends w allowed t fs (liftM x >>= k) := by
  intro u id t' before run
  obtain ⟨a, v, first, second⟩ := adding_bind run
  obtain ⟨success, rfl⟩ := adding_lift first
  exact rest a success v id t' before second

theorem Ends.list {slot : ListSlot} {kinds : List Kind} {k : List NodeId → Adding NodeId}
    (rest : ∀ ids, Ends w allowed t (fs ++ [.list slot kinds ids]) (k ids)) :
    Ends w allowed t fs (addList (w.many slot) kinds >>= k) := by
  intro u id t' before run
  obtain ⟨ids, v, first, second⟩ := adding_bind run
  exact rest ids v id t' (before.snoc first) second

theorem Ends.child {slot : Slot} {kinds : List Kind} {k : NodeId → Adding NodeId}
    (rest : ∀ x, Ends w allowed t (fs ++ [.one slot kinds false x]) (k x)) :
    Ends w allowed t fs (addOption (w.one slot) kinds >>= k) := by
  intro u id t' before run
  obtain ⟨x, v, first, second⟩ := adding_bind run
  exact rest x v id t' (before.snoc ⟨first, by simp⟩) second

theorem Ends.must {kind : Kind} {slot : Slot} {kinds : List Kind} {k : NodeId → Adding NodeId}
    (rest : ∀ x, Ends w allowed t (fs ++ [.one slot kinds true x]) (k x)) :
    Ends w allowed t fs ((liftM (w.attrs.require kind slot (w.one slot)) >>= fun _ =>
      addOption (w.one slot) kinds) >>= k) := by
  intro u id t' before run
  obtain ⟨x, v, checked, second⟩ := adding_bind run
  obtain ⟨done, v', required, first⟩ := adding_bind checked
  obtain ⟨success, rfl⟩ := adding_lift required
  have present : (w.one slot).isSome = true := by
    cases child : w.one slot with
    | none => simp [child, Attributes.require, Attributes.refuse] at success
    | some c => rfl
  exact rest x v id t' (before.snoc ⟨first, fun _ => present⟩) second

theorem Ends.append {form : Form} (keys : fillings form = fs)
    (kind : w.attrs.checkedKind allowed = .ok form.kind)
    (mods : ∃ mods, w.attrs.checkedMods (w.attrs.words .mods) = .ok mods)
    (describes : w.attrs.Describes form) (vars : form.kind = .varDecl → w.many .vars ≠ []) :
    Ends w allowed t fs (pure form >>= fun form => append ⟨w.attrs.pos, form⟩) := by
  intro u id t' before run
  have pair : (u.size + 1, (u.push ⟨w.attrs.pos, form⟩).1) = (id, t') := Except.ok.inj run
  simp only [Prod.mk.injEq] at pair
  exact ⟨form, u, ⟨kind, mods, describes, vars, keys ▸ before⟩, pair.1.symm, pair.2.symm⟩

end Ends

/-- Adding a node adds what it has under its keys, and then the node. -/
theorem addNode_inv {w : Wire} {allowed : List Kind} {t : Tree} {id : NodeId} {t' : Tree}
    (run : addNode w allowed t = .ok (id, t')) :
    ∃ form u, Added w allowed t form u ∧ id = u.size + 1 ∧
      t' = (u.push ⟨w.attrs.pos, form⟩).1 := by
  have ends : Ends w allowed t [] (addNode w allowed) := by
    obtain ⟨attrs, many, one⟩ := w
    simp only [addNode]
    refine .lift fun kind checked => .lift fun mods modified => ?_
    have last {form : Form} {fs : List Filling} (other : kind ≠ .varDecl) (same : form.kind = kind)
        (keys : fillings form = fs) (describes : attrs.Describes form) :
        Ends (.node attrs many one) allowed t fs
          (pure form >>= fun form => append ⟨attrs.pos, form⟩) :=
      .append keys (same ▸ checked) ⟨mods, modified⟩ describes
        fun declared => absurd (same.symm.trans declared) other
    cases kind with
    | unit => exact .list fun _ => last (by decide) rfl rfl ⟨rfl, rfl, rfl⟩
    | classDecl =>
      exact .list fun _ => .list fun _ => last (by decide) rfl rfl ⟨modified, rfl, rfl⟩
    | method =>
      exact .list fun _ => .list fun _ => .child fun _ =>
        last (by decide) rfl rfl ⟨modified, rfl, rfl⟩
    | varDecl =>
      dsimp only
      split
      · exact .lift fun _ refused => by simp [Attributes.refuse] at refused
      · rename_i declared
        refine .list fun _ => .list fun _ => .append rfl checked ⟨_, modified⟩ ⟨modified, rfl⟩ ?_
        exact fun _ => by simpa [Wire.many] using declared
    | namedVar => exact .child fun _ => last (by decide) rfl rfl rfl
    | annot => exact .list fun _ => last (by decide) rfl rfl rfl
    | block => exact .list fun _ => last (by decide) rfl rfl trivial
    | exprStmt => exact .must fun _ => last (by decide) rfl rfl trivial
    | «return» => exact .child fun _ => last (by decide) rfl rfl trivial
    | ifStmt =>
      exact .must fun _ => .must fun _ => .child fun _ => last (by decide) rfl rfl trivial
    | assign => exact .must fun _ => .must fun _ => last (by decide) rfl rfl rfl
    | literal => exact .lift fun _ known => last (by decide) rfl rfl ⟨known, rfl, rfl, rfl⟩
    | ident => exact .lift fun _ known => last (by decide) rfl rfl ⟨known, rfl, rfl⟩
    | fieldAccess =>
      exact .lift fun _ known => .must fun _ => last (by decide) rfl rfl ⟨known, rfl, rfl⟩
    | call => exact .child fun _ => .list fun _ => last (by decide) rfl rfl ⟨rfl, rfl⟩
    | new => exact .list fun _ => last (by decide) rfl rfl rfl
    | parens => exact .must fun _ => last (by decide) rfl rfl trivial
    | binary => exact .must fun _ => .must fun _ => last (by decide) rfl rfl ⟨rfl, rfl⟩
    | unary => exact .must fun _ => last (by decide) rfl rfl rfl
  exact ends t id t' .nil run

/-! ## What the reader adds of a node -/

/-- A run goes through what is under the keys that are left, and appends a node. -/
def Reaches (w : Wire) (u : Tree) (form : Form) (fs : List Filling) (m : Adding NodeId) : Prop :=
  ∀ t, AddsAll w t fs u → m t = .ok (u.size + 1, (u.push ⟨w.attrs.pos, form⟩).1)

section Reaches
variable {w : Wire} {u : Tree} {form : Form} {fs : List Filling}

theorem Reaches.lift {α : Type} {x : Except NodeError α} {a : α} {k : α → Adding NodeId}
    (success : x = .ok a) (rest : Reaches w u form fs (k a)) :
    Reaches w u form fs (liftM x >>= k) := by
  intro t places
  subst success
  exact rest t places

theorem Reaches.list {slot : ListSlot} {kinds : List Kind} {ids : List NodeId}
    {k : List NodeId → Adding NodeId} (rest : Reaches w u form fs (k ids)) :
    Reaches w u form (.list slot kinds ids :: fs) (addList (w.many slot) kinds >>= k) := by
  intro t places
  cases places with
  | cons first later => exact (adding_bind_eq first k).trans (rest _ later)

theorem Reaches.child {slot : Slot} {kinds : List Kind} {required : Bool} {x : NodeId}
    {k : NodeId → Adding NodeId} (rest : Reaches w u form fs (k x)) :
    Reaches w u form (.one slot kinds required x :: fs) (addOption (w.one slot) kinds >>= k) := by
  intro t places
  cases places with
  | cons first later => exact (adding_bind_eq first.1 k).trans (rest _ later)

theorem Reaches.must {kind : Kind} {slot : Slot} {kinds : List Kind} {x : NodeId}
    {k : NodeId → Adding NodeId} (rest : Reaches w u form fs (k x)) :
    Reaches w u form (.one slot kinds true x :: fs)
      ((liftM (w.attrs.require kind slot (w.one slot)) >>= fun _ =>
        addOption (w.one slot) kinds) >>= k) := by
  intro t places
  have required : w.attrs.require kind slot (w.one slot) = .ok () := by
    cases places with
    | cons first _ =>
        obtain ⟨c, child⟩ := Option.isSome_iff_exists.mp (first.2 rfl)
        rw [child, Attributes.require]
  rw [required]
  exact Reaches.child rest t places

theorem Reaches.append :
    Reaches w u form [] (pure form >>= fun form => append ⟨w.attrs.pos, form⟩) := by
  intro t places
  cases places
  rfl

end Reaches

/-- Adding a node takes no other steps than those that its form and its keys give. -/
theorem Added.addNode_eq {w : Wire} {allowed : List Kind} {t u : Tree} {form : Form}
    (added : Added w allowed t form u) :
    addNode w allowed t = .ok (u.size + 1, (u.push ⟨w.attrs.pos, form⟩).1) := by
  obtain ⟨checked, ⟨mods, modified⟩, describes, vars, places⟩ := added
  -- Stated for all trees at once, since each key is filled in the tree that the one before it left.
  refine (?_ : Reaches w u form (fillings form) (addNode w allowed)) t places
  obtain ⟨attrs, many, one⟩ := w
  simp only [addNode]
  refine .lift checked (.lift modified ?_)
  cases form with
  | unit d =>
      obtain ⟨name, package, imports, classes⟩ := d
      obtain ⟨rfl, rfl, rfl⟩ := describes
      exact .list .append
  | classDecl d =>
      obtain ⟨m, annotations, name, fqn, members⟩ := d
      obtain ⟨same, rfl, rfl⟩ := describes
      obtain rfl := Except.ok.inj (same.symm.trans modified)
      exact .list (.list .append)
  | method d =>
      obtain ⟨m, annotations, result, name, params, body⟩ := d
      obtain ⟨same, rfl, rfl⟩ := describes
      obtain rfl := Except.ok.inj (same.symm.trans modified)
      exact .list (.list (.child .append))
  | varDecl d =>
      obtain ⟨m, annotations, type, declared⟩ := d
      obtain ⟨same, rfl⟩ := describes
      obtain rfl := Except.ok.inj (same.symm.trans modified)
      have present : ¬ (many .vars).isEmpty = true := by simpa [Wire.many] using vars rfl
      dsimp only [Form.kind]
      rw [if_neg present]
      exact .list (.list .append)
  | namedVar name init =>
      obtain rfl := describes
      exact .child .append
  | annot name args =>
      obtain rfl := describes
      exact .list .append
  | block stmts => exact .list .append
  | exprStmt x => exact .must .append
  | «return» x => exact .child .append
  | ifStmt c a b => exact .must (.must (.child .append))
  | assign op target value =>
      obtain rfl := describes
      exact .must (.must .append)
  | literal lit =>
      obtain ⟨kind, value, source, type⟩ := lit
      obtain ⟨known, rfl, rfl, rfl⟩ := describes
      exact .lift known .append
  | ident name type field =>
      obtain ⟨known, rfl, rfl⟩ := describes
      exact .lift known .append
  | fieldAccess x name type field =>
      obtain ⟨known, rfl, rfl⟩ := describes
      exact .lift known (.must .append)
  | call recv name args type =>
      obtain ⟨rfl, rfl⟩ := describes
      exact .child (.list .append)
  | new className args =>
      obtain rfl := describes
      exact .list .append
  | parens x => exact .must .append
  | binary op x y type =>
      obtain ⟨rfl, rfl⟩ := describes
      exact .must (.must .append)
  | unary op x =>
      obtain rfl := describes
      exact .must .append

/-! ## Induction over what is added -/

theorem addOption_cases {w : Option Wire} {allowed : List Kind} {t t' : Tree} {id : NodeId}
    (run : addOption w allowed t = .ok (id, t')) :
    (w = none ∧ id = 0 ∧ t' = t) ∨ ∃ c, w = some c ∧ addNode c allowed t = .ok (id, t') := by
  cases w with
  | none =>
      rw [addOption] at run
      have pair : ((0 : NodeId), t) = (id, t') := Except.ok.inj run
      simp only [Prod.mk.injEq] at pair
      exact .inl ⟨rfl, pair.1.symm, pair.2.symm⟩
  | some c =>
      rw [addOption] at run
      exact .inr ⟨c, rfl, run⟩

theorem AddsAll.preserves {w : Wire} {P : Tree → Prop}
    (lists : ∀ slot kinds v ids v', addList (w.many slot) kinds v = .ok (ids, v') → P v → P v')
    (singles : ∀ slot c kinds v x v', w.one slot = some c → addNode c kinds v = .ok (x, v') →
      P v → P v')
    {fs : List Filling} {t u : Tree} (all : AddsAll w t fs u) (start : P t) : P u := by
  induction all with
  | nil => exact start
  | @cons t v u f rest first _ ih =>
      refine ih ?_
      cases f with
      | list slot kinds ids => exact lists slot kinds t ids v first start
      | one slot kinds required x =>
          rcases addOption_cases first.1 with ⟨_, _, rfl⟩ | ⟨c, present, run⟩
          · exact start
          · exact singles slot c kinds t x v present run start

/-- Properties of adding nodes and lists of nodes that hold once they hold of all that is below. -/
structure Hereditary (N : Wire → List Kind → Tree → NodeId → Tree → Prop)
    (L : List (Option Wire) → List Kind → Tree → List NodeId → Tree → Prop) : Prop where
  nil : ∀ allowed t, L [] allowed t [] t
  skip : ∀ {rest allowed t ids t'}, L rest allowed t ids t' → L (none :: rest) allowed t ids t'
  cons : ∀ {w rest allowed t id u ids t'}, addNode w allowed t = .ok (id, u) →
    N w allowed t id u → addList rest allowed u = .ok (ids, t') → L rest allowed u ids t' →
    L (some w :: rest) allowed t (id :: ids) t'
  node : ∀ {w allowed t form u}, Added w allowed t form u →
    (∀ slot kinds v ids v', addList (w.many slot) kinds v = .ok (ids, v') →
      L (w.many slot) kinds v ids v') →
    (∀ slot c kinds v x v', w.one slot = some c → addNode c kinds v = .ok (x, v') →
      N c kinds v x v') →
    N w allowed t (u.size + 1) (u.push ⟨w.attrs.pos, form⟩).1

section Hereditary
variable {N : Wire → List Kind → Tree → NodeId → Tree → Prop}
  {L : List (Option Wire) → List Kind → Tree → List NodeId → Tree → Prop}

mutual

theorem Hereditary.addNode (inherits : Hereditary N L) (w : Wire) (allowed : List Kind) (t : Tree)
    (id : NodeId) (t' : Tree) (run : addNode w allowed t = .ok (id, t')) :
    N w allowed t id t' := by
  match w with
  | .node attrs many one =>
    obtain ⟨form, u, added, rfl, rfl⟩ := addNode_inv run
    refine inherits.node added (fun slot => inherits.addList (many slot)) ?_
    exact fun slot c kinds v x v' child => inherits.addSome (one slot) c child kinds v x v'

theorem Hereditary.addSome (inherits : Hereditary N L) (w : Option Wire) (c : Wire)
    (present : w = some c) (allowed : List Kind) (t : Tree) (id : NodeId) (t' : Tree)
    (run : Document.addNode c allowed t = .ok (id, t')) : N c allowed t id t' := by
  match w with
  | none => contradiction
  | some w =>
    obtain rfl := Option.some.inj present
    exact inherits.addNode w allowed t id t' run

theorem Hereditary.addList (inherits : Hereditary N L) (ws : List (Option Wire))
    (allowed : List Kind) (t : Tree) (ids : List NodeId) (t' : Tree)
    (run : addList ws allowed t = .ok (ids, t')) : L ws allowed t ids t' := by
  match ws with
  | [] =>
    rw [Document.addList] at run
    have pair : (([] : List NodeId), t) = (ids, t') := Except.ok.inj run
    simp only [Prod.mk.injEq] at pair
    obtain ⟨rfl, rfl⟩ := pair
    exact inherits.nil allowed t
  | none :: rest =>
    rw [Document.addList] at run
    exact inherits.skip (inherits.addList rest allowed t ids t' run)
  | some w :: rest =>
    rw [Document.addList] at run
    obtain ⟨id, u, first, run⟩ := adding_bind run
    obtain ⟨more, v, second, run⟩ := adding_bind run
    have pair : (id :: more, v) = (ids, t') := Except.ok.inj run
    simp only [Prod.mk.injEq] at pair
    obtain ⟨rfl, rfl⟩ := pair
    exact inherits.cons first (inherits.addNode w allowed t id u first) second
      (inherits.addList rest allowed u more v second)

end

end Hereditary

end LiteralHoist.Document
