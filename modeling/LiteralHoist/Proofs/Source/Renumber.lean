import LiteralHoist.Proofs.Source.Trail
import Mathlib.Logic.Function.Basic

/-!
# Trees under other numbers

A tree is another one under other numbers if a map of numbers takes its root, and what stands at
each of its numbers, to those of the other.  The map is one to one and leaves zero and the numbers
beyond the last place alone, so that numbers of new nodes are the same in both trees.

What reads a tree gives the same for both, up to the numbers in the result.  What writes to a tree
leaves trees that are one another under the same map.
-/

set_option autoImplicit false

namespace LiteralHoist

/-- What goes on alike with a renamed result gives the renamed result in the end. -/
theorem bind_map_of_agree {ε α β γ δ : Type} {k : α → Except ε β} {k' : γ → Except ε δ}
    {g : β → δ} {h : α → γ} (agree : ∀ a, k' (h a) = g <$> k a) (x : Except ε α) :
    (h <$> x >>= k') = g <$> (x >>= k) := by
  cases x with
  | error fault => rfl
  | ok a => exact agree a

/-- A fold over renamed items is the renamed fold if each of its steps is. -/
theorem foldlM_map_of_agree {ε σ τ α β : Type} {run : σ → α → Except ε σ}
    {run' : τ → β → Except ε τ} {g : σ → τ} {h : α → β}
    (agree : ∀ s x, run' (g s) (h x) = g <$> run s x) (xs : List α) :
    ∀ s, (xs.map h).foldlM run' (g s) = g <$> xs.foldlM run s := by
  induction xs with
  | nil => exact fun _ => rfl
  | cons x rest ih =>
      intro s
      rw [List.map_cons, List.foldlM_cons, List.foldlM_cons, agree]
      cases run s x with
      | error fault => rfl
      | ok next => exact ih next

/-- What is made of renamed items is renamed if each of it is. -/
theorem mapM_map_of_agree {ε α β γ δ : Type} {run : α → Except ε β} {run' : γ → Except ε δ}
    {g : β → δ} {h : α → γ} (agree : ∀ x, run' (h x) = g <$> run x) (xs : List α) :
    (xs.map h).mapM run' = List.map g <$> xs.mapM run := by
  induction xs with
  | nil => rfl
  | cons x rest ih =>
      rw [List.map_cons, List.mapM_cons, List.mapM_cons, agree, ih]
      cases run x with
      | error fault => rfl
      | ok y =>
          cases rest.mapM run with
          | error fault => rfl
          | ok ys => rfl

theorem mapM_map_eq {ε α β γ : Type} {run : α → Except ε β} {run' : γ → Except ε β} {h : α → γ}
    (agree : ∀ x, run' (h x) = run x) (xs : List α) : (xs.map h).mapM run' = xs.mapM run := by
  have each : run' ∘ h = run := funext agree
  rw [List.mapM_map, each]

namespace Source

section Form
variable (ρ : NodeId → NodeId)

def UnitDecl.renumber (d : UnitDecl) : UnitDecl :=
  { d with classes := d.classes.map ρ }

def ClassDecl.renumber (d : ClassDecl) : ClassDecl :=
  { d with annotations := d.annotations.map ρ, members := d.members.map ρ }

def MethodDecl.renumber (d : MethodDecl) : MethodDecl :=
  { d with annotations := d.annotations.map ρ, params := d.params.map ρ, body := ρ d.body }

def VarDecl.renumber (d : VarDecl) : VarDecl :=
  { d with annotations := d.annotations.map ρ, vars := d.vars.map ρ }

def Form.renumber : Form → Form
  | .unit d => .unit (d.renumber ρ)
  | .classDecl d => .classDecl (d.renumber ρ)
  | .method d => .method (d.renumber ρ)
  | .varDecl d => .varDecl (d.renumber ρ)
  | .namedVar name init => .namedVar name (ρ init)
  | .annot name args => .annot name (args.map ρ)
  | .block stmts => .block (stmts.map ρ)
  | .exprStmt x => .exprStmt (ρ x)
  | .return x => .return (ρ x)
  | .ifStmt c a b => .ifStmt (ρ c) (ρ a) (ρ b)
  | .assign op target value => .assign op (ρ target) (ρ value)
  | .literal lit => .literal lit
  | .ident name type field => .ident name type field
  | .fieldAccess x name type field => .fieldAccess (ρ x) name type field
  | .call recv name args type => .call (ρ recv) name (args.map ρ) type
  | .new className args => .new className (args.map ρ)
  | .parens x => .parens (ρ x)
  | .binary op x y type => .binary op (ρ x) (ρ y) type
  | .unary op x => .unary op (ρ x)

def Node.renumber (n : Node) : Node :=
  { n with form := n.form.renumber ρ }

theorem Form.kind_renumber (f : Form) : (f.renumber ρ).kind = f.kind := by
  cases f <;> rfl

theorem Form.mentionedType_renumber (f : Form) :
    (f.renumber ρ).mentionedType = f.mentionedType := by
  cases f <;> rfl

theorem Form.places_renumber (f : Form) : (f.renumber ρ).places = f.places.map ρ := by
  cases f <;> simp [renumber, places, UnitDecl.renumber, ClassDecl.renumber, MethodDecl.renumber,
    VarDecl.renumber]

end Form

/-- A tree is another one under other numbers. -/
structure Tree.Renumbers (t : Tree) (ρ : NodeId → NodeId) (t' : Tree) : Prop where
  injective : Function.Injective ρ
  zero : ρ 0 = 0
  beyond : ∀ id, t.size < id → ρ id = id
  root_eq : t'.root = ρ t.root
  size_eq : t'.size = t.size
  node?_eq : ∀ id, t'.node? (ρ id) = Option.map (Node.renumber ρ) <$> t.node? id

theorem Tree.Renumbers.empty : Tree.Renumbers {} id {} where
  injective := Function.injective_id
  zero := rfl
  beyond _ _ := rfl
  root_eq := rfl
  size_eq := rfl
  node?_eq x := by
    by_cases absent : x = 0
    · rw [absent, node?_zero]
      rfl
    · rw [id_eq, node?_of_size_lt (Nat.pos_of_ne_zero absent)]
      rfl

namespace Tree.Renumbers
variable {t t' : Tree} {ρ : NodeId → NodeId} (same : t.Renumbers ρ t')
include same

/-! ## Single nodes -/

theorem eq_zero_iff {id : NodeId} : ρ id = 0 ↔ id = 0 := by
  rw [← same.injective.eq_iff (a := id), same.zero]

theorem holds {id : NodeId} {n : Node} (held : t.Holds id n) : t'.Holds (ρ id) (n.renumber ρ) := by
  rw [Holds, same.node?_eq, held.node?_eq]
  rfl

theorem peek_eq (id : NodeId) : t'.peek (ρ id) = (t.peek id).map (Node.renumber ρ) := by
  rw [peek, peek, same.node?_eq]
  cases t.node? id with
  | error fault => rfl
  | ok entry => rfl

theorem form?_eq (id : NodeId) : t'.form? (ρ id) = Option.map (Form.renumber ρ) <$> t.form? id := by
  rw [form?, form?, same.node?_eq]
  cases t.node? id with
  | error fault => rfl
  | ok entry => cases entry <;> rfl

/-- What goes on alike after looking at a node gives the same for both trees. -/
theorem bind_node?_map {α β : Type} {k : Option Node → Except Fault α}
    {k' : Option Node → Except Fault β} {g : α → β}
    (agree : ∀ entry, k' (Option.map (Node.renumber ρ) entry) = g <$> k entry) (id : NodeId) :
    (t'.node? (ρ id) >>= k') = g <$> (t.node? id >>= k) := by
  rw [same.node?_eq]
  exact bind_map_of_agree agree (t.node? id)

theorem bind_form?_map {α β : Type} {k : Option Form → Except Fault α}
    {k' : Option Form → Except Fault β} {g : α → β}
    (agree : ∀ entry, k' (Option.map (Form.renumber ρ) entry) = g <$> k entry) (id : NodeId) :
    (t'.form? (ρ id) >>= k') = g <$> (t.form? id >>= k) := by
  rw [same.form?_eq]
  exact bind_map_of_agree agree (t.form? id)

theorem bind_node?_eq {α : Type} {k k' : Option Node → Except Fault α}
    (agree : ∀ entry, k' (Option.map (Node.renumber ρ) entry) = k entry) (x : NodeId) :
    (t'.node? (ρ x) >>= k') = (t.node? x >>= k) := by
  rw [same.bind_node?_map (g := id) (fun entry => (agree entry).trans (id_map _).symm)]
  exact id_map _

theorem bind_form?_eq {α : Type} {k k' : Option Form → Except Fault α}
    (agree : ∀ entry, k' (Option.map (Form.renumber ρ) entry) = k entry) (x : NodeId) :
    (t'.form? (ρ x) >>= k') = (t.form? x >>= k) := by
  rw [same.bind_form?_map (g := id) (fun entry => (agree entry).trans (id_map _).symm)]
  exact id_map _

theorem children_renumber (f : Form) : (f.renumber ρ).children = f.children.map ρ := by
  rw [Form.children, Form.children, Form.places_renumber, List.filter_map]
  congr 1
  refine List.filter_congr fun id _ => ?_
  simp [same.eq_zero_iff]

theorem children_eq (id : NodeId) : t'.children (ρ id) = List.map ρ <$> t.children id := by
  refine same.bind_form?_map (fun entry => ?_) id
  rcases entry with _ | form
  · rfl
  · exact congrArg Except.ok (same.children_renumber form)

theorem classAt?_eq (c : NodeId) :
    t'.classAt? (ρ c) = Option.map (Prod.map id (ClassDecl.renumber ρ)) <$> t.classAt? c := by
  refine same.bind_node?_map (fun entry => ?_) c
  rcases entry with _ | ⟨pos, form⟩
  · rfl
  · cases form <;> rfl

theorem unit?_eq : t'.unit? = Option.map (Prod.map id (UnitDecl.renumber ρ)) <$> t.unit? := by
  rw [unit?, unit?, same.root_eq]
  refine same.bind_node?_map (fun entry => ?_) t.root
  rcases entry with _ | ⟨pos, form⟩
  · rfl
  · cases form <;> rfl

end Tree.Renumbers

/-! ## Walks -/

namespace Tree.Renumbers
variable {t t' : Tree} {ρ : NodeId → NodeId} (same : t.Renumbers ρ t')
include same

section Walk
variable {σ τ : Type} {visitor : Visitor σ} {visitor' : Visitor τ} {g : σ → τ}
  (agree : ∀ path s, visitor' (path.map ρ) (g s) = Prod.map id g <$> visitor path s)
include agree

theorem tour_eq (depth : Nat) : ∀ (above : Path) (s : σ) (id : NodeId),
    t'.tour visitor' depth (above.map ρ) (g s) (ρ id) = g <$> t.tour visitor depth above s id := by
  induction depth with
  | zero => exact fun _ _ _ => rfl
  | succ depth ih =>
      intro above s id
      have seen := agree (id :: above) s
      rw [tour, tour, ← List.map_cons, seen]
      cases visitor (id :: above) s with
      | error fault => rfl
      | ok answer =>
          obtain ⟨descend, s'⟩ := answer
          cases descend with
          | false => rfl
          | true =>
              simp only [Functor.map, Except.map, Prod.map_apply, id_eq, ok_bind, if_true,
                same.children_eq]
              cases t.children id with
              | error fault => rfl
              | ok ids => exact foldlM_map_of_agree (ih (id :: above)) ids s'

/-- A walk under other numbers gathers the same under other numbers if each visit does. -/
theorem walk_eq (root : NodeId) (start : σ) :
    t'.walk visitor' (ρ root) (g start) = g <$> t.walk visitor root start := by
  rw [walk_eq_tour, walk_eq_tour]
  by_cases absent : root = 0
  · rw [if_pos absent, if_pos (same.eq_zero_iff.mpr absent)]
    rfl
  · rw [if_neg absent, if_neg (same.eq_zero_iff.not.mpr absent), same.size_eq]
    exact same.tour_eq agree (t.size + 1) [] start root

end Walk

/-- The same for a walk that puts what it finds in front of a list. -/
theorem gather_eq {α β : Type} {visitor : Visitor (List α)} {visitor' : Visitor (List β)}
    {h : α → β} (agree : ∀ path s, visitor' (path.map ρ) (s.map h) =
      Prod.map id (List.map h) <$> visitor path s) (root : NodeId) :
    List.reverse <$> t'.walk visitor' (ρ root) [] =
      List.map h <$> List.reverse <$> t.walk visitor root [] := by
  have walked := same.walk_eq agree root []
  rw [List.map_nil] at walked
  rw [walked]
  cases t.walk visitor root [] with
  | error fault => rfl
  | ok found => exact congrArg Except.ok List.map_reverse.symm

theorem innermost?_eq (path : Path) :
    t'.innermost? (path.map ρ) = Option.map (Node.renumber ρ) <$> t.innermost? path := by
  cases path with
  | nil => rfl
  | cons id rest => exact same.node?_eq id

theorem firstAccepted_eq {accepts : Option Node → Bool}
    (blind : ∀ entry : Option Node, accepts (entry.map (Node.renumber ρ)) = accepts entry)
    (ids : List NodeId) : ∀ index, t'.firstAccepted accepts index (ids.map ρ) =
      Option.map (Prod.map ρ id) <$> t.firstAccepted accepts index ids := by
  induction ids with
  | nil => exact fun _ => rfl
  | cons x rest ih =>
      intro index
      simp only [List.map_cons, firstAccepted, same.node?_eq]
      cases t.node? x with
      | error fault => rfl
      | ok entry =>
          simp only [Functor.map, Except.map, ok_bind, blind]
          split
          · rfl
          · exact ih (index + 1)

theorem nearest_eq {accepts : Option Node → Bool}
    (blind : ∀ entry : Option Node, accepts (entry.map (Node.renumber ρ)) = accepts entry)
    (path : Path) : t'.nearest accepts (path.map ρ) =
      Option.map (Prod.map ρ id) <$> t.nearest accepts path := by
  rw [nearest, nearest, ← List.map_tail]
  exact same.firstAccepted_eq blind path.tail 1

theorem classes_eq (root : NodeId) : t'.classes (ρ root) = List.map ρ <$> t.classes root := by
  refine same.gather_eq (fun path found => ?_) root
  cases path with
  | nil => rfl
  | cons id above =>
      refine same.bind_node?_map (fun entry => ?_) id
      rcases entry with _ | ⟨pos, form⟩
      · rfl
      · cases form <;> rfl

theorem usesType_eq (accepts : Text → Bool) (root : NodeId) :
    t'.usesType accepts (ρ root) = t.usesType accepts root := by
  rw [usesType, usesType]
  refine (same.walk_eq (g := id) (fun path found => ?_) root false).trans (id_map _)
  cases found with
  | true => rfl
  | false =>
      simp only [id_eq, same.innermost?_eq]
      cases t.innermost? path with
      | error fault => rfl
      | ok entry =>
          cases entry with
          | none => rfl
          | some n =>
              simp only [Functor.map, Except.map, Option.map_some, ok_bind, Node.renumber,
                Form.mentionedType_renumber]
              rfl

end Tree.Renumbers

/-! ## Positions -/

/-- The number at a position below a number.  A position says, step by step, which child is
taken. -/
def Tree.locate (t : Tree) : NodeId → List Nat → Option NodeId
  | id, [] => some id
  | id, i :: rest =>
    match t.peek id with
    | none => none
    | some n =>
      match n.form.children[i]? with
      | none => none
      | some child => t.locate child rest

namespace Tree.Renumbers
variable {t t' : Tree} {ρ : NodeId → NodeId} (same : t.Renumbers ρ t')
include same

theorem locate_eq (position : List Nat) :
    ∀ id, t'.locate (ρ id) position = (t.locate id position).map ρ := by
  induction position with
  | nil => exact fun _ => rfl
  | cons i rest ih =>
      intro id
      simp only [locate, same.peek_eq]
      cases t.peek id with
      | none => rfl
      | some n =>
          simp only [Option.map_some, Node.renumber, same.children_renumber, List.getElem?_map]
          cases n.form.children[i]? with
          | none => rfl
          | some child => exact ih child

/-! ## Writing -/

/-- New nodes get the same number in both trees. -/
theorem push (n : Node) : (t.push n).1.Renumbers ρ (t'.push (n.renumber ρ)).1 where
  injective := same.injective
  zero := same.zero
  beyond id outside := same.beyond id (by rw [size_push] at outside; omega)
  root_eq := same.root_eq
  size_eq := by rw [size_push, size_push, same.size_eq]
  node?_eq id := by
    have last : ρ (t.size + 1) = t.size + 1 := same.beyond _ (Nat.lt_succ_self _)
    rw [node?_push, node?_push, same.size_eq, same.node?_eq]
    by_cases new : id = t.size + 1
    · rw [if_pos new, new, last, if_pos rfl]
      rfl
    · have other : ρ id ≠ t.size + 1 := by
        rw [← last]
        exact same.injective.ne new
      rw [if_neg new, if_neg other]

theorem fresh : (ρ (t.size + 1) : NodeId) = t'.size + 1 := by
  rw [same.size_eq]
  exact same.beyond _ (Nat.lt_succ_self _)

theorem pushForm (form : Form) :
    (t.pushForm form).1.Renumbers ρ (t'.pushForm (form.renumber ρ)).1 ∧
      (t'.pushForm (form.renumber ρ)).2 = ρ (t.pushForm form).2 :=
  ⟨same.push { form }, same.fresh.symm⟩

theorem revises {u u' : Tree} {change change' : NodeId → Node → Node}
    (edit : t.Revises u change) (edit' : t'.Revises u' change')
    (agree : ∀ id n, (change id n).renumber ρ = change' (ρ id) (n.renumber ρ)) :
    u.Renumbers ρ u' where
  injective := same.injective
  zero := same.zero
  beyond id outside := same.beyond id (edit.size_eq ▸ outside)
  root_eq := by rw [edit'.root_eq, edit.root_eq, same.root_eq]
  size_eq := by rw [edit'.size_eq, edit.size_eq, same.size_eq]
  node?_eq id := by
    rw [edit'.node?_eq, edit.node?_eq, same.node?_eq]
    cases t.node? id with
    | error fault => rfl
    | ok entry =>
        cases entry with
        | none => rfl
        | some n => exact congrArg (Except.ok ∘ some) (agree id n).symm

/-- Overwriting a node in both trees. -/
theorem set {id : NodeId} {n : Node} (held : t.Holds id n) (m : Node) :
    ∃ u u', t.set id (some m) = .ok u ∧ t'.set (ρ id) (some (m.renumber ρ)) = .ok u' ∧
      u.Renumbers ρ u' := by
  obtain ⟨u, run, edit⟩ := set_of_holds held m
  obtain ⟨u', run', edit'⟩ := set_of_holds (same.holds held) (m.renumber ρ)
  refine ⟨u, u', run, run', same.revises edit edit' fun j x => ?_⟩
  by_cases here : j = id
  · rw [if_pos here, here, if_pos rfl]
  · rw [if_neg here, if_neg (same.injective.ne here)]

end Tree.Renumbers

end Source

end LiteralHoist
