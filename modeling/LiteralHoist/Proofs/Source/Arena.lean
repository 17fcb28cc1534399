import LiteralHoist.Source.Tree
import Mathlib.Data.List.Forall2

/-!
# Nodes and their numbers

`Tree.Holds` says which node stands at a number.  Overwriting a place and appending a node are
described by what they do to this relation, so that no later proof looks into the table of nodes.
`Tree.peek` is the same as a function, for numbers of which it does not matter whether they are in
the table.

`Tree.Revises` describes an edit that overwrites nodes, but neither appends nor empties a place.
-/

set_option autoImplicit false

namespace LiteralHoist

theorem ok_bind {ε α β : Type} (a : α) (f : α → Except ε β) : (Except.ok a >>= f) = f a :=
  rfl

theorem pure_eq_ok {ε α : Type} (a : α) : (pure a : Except ε α) = .ok a :=
  rfl

theorem eq_ok_of_toOption {ε α : Type} {x : Except ε α} {a : α} (same : x.toOption = some a) :
    x = .ok a := by
  cases x with
  | error e => simp [Except.toOption] at same
  | ok b => exact congrArg Except.ok (Option.some.inj same)

theorem mapM_eq_ok {ε α β : Type} (run : α → Except ε β) (result : α → β) (xs : List α)
    (each : ∀ x ∈ xs, run x = .ok (result x)) : xs.mapM run = .ok (xs.map result) := by
  induction xs with
  | nil => rfl
  | cons x rest ih =>
      have head := each x (by simp)
      have tail := ih fun y member => each y (by simp [member])
      rw [List.mapM_cons, head, ok_bind, tail]
      rfl

theorem exists_mapM_eq_ok {ε α β : Type} (run : α → Except ε β) (xs : List α)
    (each : ∀ x ∈ xs, ∃ y, run x = .ok y) : ∃ ys, xs.mapM run = .ok ys := by
  induction xs with
  | nil => exact ⟨[], rfl⟩
  | cons x rest ih =>
      obtain ⟨y, head⟩ := each x (by simp)
      obtain ⟨ys, tail⟩ := ih fun z member => each z (by simp [member])
      exact ⟨y :: ys, by rw [List.mapM_cons, head, ok_bind, tail]; rfl⟩

theorem foldlM_eq_ok {ε α β : Type} (run : β → α → Except ε β) (result : β → α → β)
    (xs : List α) : ∀ start, (∀ b, ∀ x ∈ xs, run b x = .ok (result b x)) →
      xs.foldlM run start = .ok (xs.foldl result start) := by
  induction xs with
  | nil => intro start _; rfl
  | cons x rest ih =>
      intro start each
      rw [List.foldlM_cons, each start x (by simp), ok_bind, List.foldl_cons]
      exact ih _ fun b y member => each b y (by simp [member])

theorem bind_eq_ok {ε α β : Type} {x : Except ε α} {f : α → Except ε β} {b : β}
    (success : x >>= f = .ok b) : ∃ a, x = .ok a ∧ f a = .ok b := by
  cases x with
  | error e => contradiction
  | ok a => exact ⟨a, rfl, success⟩

theorem map_eq_ok {ε α β : Type} {x : Except ε α} {f : α → β} {b : β}
    (success : f <$> x = .ok b) : ∃ a, x = .ok a ∧ f a = b := by
  cases x with
  | error e => contradiction
  | ok a => exact ⟨a, rfl, Except.ok.inj success⟩

theorem foldlM_preserves {ε α β : Type} {P : β → Prop} {run : β → α → Except ε β}
    (step : ∀ b x next, P b → run b x = .ok next → P next) (xs : List α) :
    ∀ {start last : β}, P start → xs.foldlM run start = .ok last → P last := by
  induction xs with
  | nil =>
      intro start last holds done
      exact Except.ok.inj done ▸ holds
  | cons x rest ih =>
      intro start last holds ran
      rw [List.foldlM_cons] at ran
      obtain ⟨next, first, later⟩ := bind_eq_ok ran
      exact ih (step start x next holds first) later

theorem forall₂_of_mapM_eq_ok {ε α β : Type} {run : α → Except ε β} {xs : List α} :
    ∀ {ys : List β}, xs.mapM run = .ok ys → List.Forall₂ (fun x y => run x = .ok y) xs ys := by
  induction xs with
  | nil =>
      intro ys success
      rw [← Except.ok.inj success]
      exact .nil
  | cons x rest ih =>
      intro ys success
      rw [List.mapM_cons] at success
      obtain ⟨y, head, success⟩ := bind_eq_ok success
      obtain ⟨more, tail, made⟩ := bind_eq_ok success
      rw [← Except.ok.inj made]
      exact .cons head (ih tail)

theorem exists_of_forall₂ {α β : Type} {R : α → β → Prop} {xs : List α} {ys : List β}
    (related : List.Forall₂ R xs ys) {x : α} (member : x ∈ xs) : ∃ y ∈ ys, R x y := by
  obtain ⟨i, inside, rfl⟩ := List.getElem_of_mem member
  have bound : i < ys.length := related.length_eq ▸ inside
  exact ⟨ys[i], List.getElem_mem bound, related.get inside bound⟩

theorem exists_of_foldlM_eq_ok {ε α β γ : Type} {run : α → Except ε γ} {step : β → α → γ → β}
    {xs : List α} : ∀ {start last : β},
      xs.foldlM (fun b x => do return step b x (← run x)) start = .ok last →
        ∀ x ∈ xs, ∃ y, run x = .ok y := by
  induction xs with
  | nil => simp
  | cons x rest ih =>
      intro start last success
      rw [List.foldlM_cons] at success
      obtain ⟨b, head, tail⟩ := bind_eq_ok success
      obtain ⟨y, first, _⟩ := bind_eq_ok head
      exact List.forall_mem_cons.mpr ⟨⟨y, first⟩, ih tail⟩

namespace Source.Tree

def Holds (t : Tree) (id : NodeId) (n : Node) : Prop :=
  t.node? id = .ok (some n)

def peek (t : Tree) (id : NodeId) : Option Node :=
  match t.node? id with
  | .ok entry => entry
  | .error _ => none

theorem Holds.node?_eq {t : Tree} {id : NodeId} {n : Node} (held : t.Holds id n) :
    t.node? id = .ok (some n) :=
  held

theorem node?_zero (t : Tree) : t.node? 0 = .ok none := by
  simp [node?]

theorem Holds.unique {t : Tree} {id : NodeId} {n m : Node} (first : t.Holds id n)
    (second : t.Holds id m) : n = m := by
  have same : (Except.ok (some n) : Except Fault (Option Node)) = .ok (some m) :=
    first.symm.trans second
  simpa using same

section Unique
variable {t : Tree} {id : NodeId} {pos pos' : Position}

theorem Holds.class_unique {d d' : ClassDecl} (first : t.Holds id ⟨pos, .classDecl d⟩)
    (second : t.Holds id ⟨pos', .classDecl d'⟩) : pos = pos' ∧ d = d' := by
  simpa using first.unique second

theorem Holds.literal_unique {lit lit' : Literal} (first : t.Holds id ⟨pos, .literal lit⟩)
    (second : t.Holds id ⟨pos', .literal lit'⟩) : pos = pos' ∧ lit = lit' := by
  simpa using first.unique second

theorem Holds.variable_unique {name name' : Text} {init init' : NodeId}
    (first : t.Holds id ⟨pos, .namedVar name init⟩)
    (second : t.Holds id ⟨pos', .namedVar name' init'⟩) :
    pos = pos' ∧ name = name' ∧ init = init' := by
  simpa using first.unique second

end Unique

theorem Holds.ne_zero {t : Tree} {id : Nat} {n : Node} (held : t.Holds id n) : id ≠ 0 := by
  intro zero
  subst zero
  simp [Holds, node?_zero] at held

theorem node?_of_size_lt {t : Tree} {id : Nat} (beyond : t.size < id) :
    t.node? id = .error (.dangling id) := by
  have present : id ≠ 0 := by omega
  have outside : t.nodes[id - 1]? = none := by
    apply Array.getElem?_eq_none
    rw [size] at beyond
    omega
  rw [node?, if_neg present, outside]

theorem Holds.le_size {t : Tree} {id : Nat} {n : Node} (held : t.Holds id n) :
    id ≤ t.size := by
  by_contra beyond
  rw [Holds, node?_of_size_lt (Nat.lt_of_not_le beyond)] at held
  contradiction

theorem Holds.mem_nodes {t : Tree} {id : Nat} {n : Node} (held : t.Holds id n) :
    some n ∈ t.nodes.toList := by
  have positive := held.ne_zero
  rw [Holds, node?, if_neg positive] at held
  split at held
  · rename_i entry found
    rw [← Except.ok.inj held]
    exact Array.mem_toList_iff.mpr (Array.mem_of_getElem? found)
  · contradiction

theorem Holds.peek_eq {t : Tree} {id : NodeId} {n : Node} (held : t.Holds id n) :
    t.peek id = some n := by
  rw [Holds] at held
  simp [peek, held]

theorem holds_of_peek {t : Tree} {id : NodeId} {n : Node} (found : t.peek id = some n) :
    t.Holds id n := by
  unfold peek at found
  split at found
  · rename_i entry lookup
    rw [found] at lookup
    exact lookup
  · contradiction

theorem Holds.form?_eq {t : Tree} {id : NodeId} {n : Node} (held : t.Holds id n) :
    t.form? id = .ok (some n.form) := by
  rw [Holds] at held
  simp [form?, held, Except.map]

theorem Holds.children_eq {t : Tree} {id : NodeId} {n : Node} (held : t.Holds id n) :
    t.children id = .ok n.form.children := by
  rw [children, held.form?_eq, ok_bind]
  rfl

theorem Holds.classAt?_eq {t : Tree} {id : NodeId} {pos : Position} {d : ClassDecl}
    (held : t.Holds id ⟨pos, .classDecl d⟩) : t.classAt? id = .ok (some (pos, d)) := by
  rw [Holds] at held
  rw [classAt?, held, ok_bind]
  rfl

theorem holds_of_classAt? {t : Tree} {id : NodeId} {pos : Position} {d : ClassDecl}
    (found : t.classAt? id = .ok (some (pos, d))) : t.Holds id ⟨pos, .classDecl d⟩ := by
  obtain ⟨entry, lookup, made⟩ := bind_eq_ok found
  split at made
  · obtain ⟨rfl, rfl⟩ : _ ∧ _ := by simpa [pure_eq_ok] using made
    exact lookup
  · simp [pure_eq_ok] at made

/-! ## Appending -/

theorem size_push (t : Tree) (n : Node) : (t.push n).1.size = t.size + 1 := by
  simp [push, size]

theorem node?_push (t : Tree) (n : Node) (id : Nat) :
    (t.push n).1.node? id = if id = t.size + 1 then .ok (some n) else t.node? id := by
  by_cases last : id = t.size + 1
  · subst last
    simp [push, node?, size]
  · rw [if_neg last]
    by_cases zero : id = 0
    · simp [zero, node?_zero]
    · have other : id - 1 ≠ t.nodes.size := by
        rw [size] at last
        omega
      simp [push, node?, zero, Array.getElem?_push, other]

theorem holds_push_new (t : Tree) (n : Node) : (t.push n).1.Holds (t.size + 1) n := by
  simp [Holds, node?_push]

theorem Holds.push {t : Tree} {id : Nat} {n : Node} (held : t.Holds id n) (m : Node) :
    (t.push m).1.Holds id n := by
  have old := held.le_size
  have other : id ≠ t.size + 1 := by omega
  rw [Holds, node?_push, if_neg other]
  exact held

theorem holds_of_push {t : Tree} {m n : Node} {id : Nat} (held : (t.push m).1.Holds id n) :
    n = m ∨ t.Holds id n := by
  rw [Holds, node?_push] at held
  split at held
  · exact .inl (Option.some.inj (Except.ok.inj held)).symm
  · exact .inr held

/-! ## Overwriting -/

/-- An edit that puts `change id n` at every number `id` at which `n` stands. -/
structure Revises (t t' : Tree) (change : NodeId → Node → Node) : Prop where
  root_eq : t'.root = t.root
  size_eq : t'.size = t.size
  node?_eq : ∀ id, t'.node? id = (t.node? id).map (Option.map (change id))

theorem Revises.holds {t t' : Tree} {change : NodeId → Node → Node}
    (edit : t.Revises t' change) {id : NodeId} {n : Node} (held : t.Holds id n) :
    t'.Holds id (change id n) := by
  rw [Holds] at held ⊢
  rw [edit.node?_eq, held]
  rfl

theorem Revises.refl (t : Tree) : t.Revises t fun _ n => n where
  root_eq := rfl
  size_eq := rfl
  node?_eq id := by
    cases t.node? id with
    | ok entry => cases entry <;> rfl
    | error fault => rfl

theorem Revises.trans {t u v : Tree} {first second : NodeId → Node → Node}
    (left : t.Revises u first) (right : u.Revises v second) :
    t.Revises v fun id n => second id (first id n) where
  root_eq := right.root_eq.trans left.root_eq
  size_eq := right.size_eq.trans left.size_eq
  node?_eq id := by
    rw [right.node?_eq, left.node?_eq]
    cases t.node? id with
    | ok entry => cases entry <;> rfl
    | error fault => rfl

/-- The change of an edit matters only where a node stands. -/
theorem Revises.congr {t t' : Tree} {change other : NodeId → Node → Node}
    (edit : t.Revises t' change)
    (agree : ∀ id n, t.Holds id n → change id n = other id n) : t.Revises t' other where
  root_eq := edit.root_eq
  size_eq := edit.size_eq
  node?_eq id := by
    rw [edit.node?_eq]
    cases lookup : t.node? id with
    | error fault => rfl
    | ok entry =>
        cases entry with
        | none => rfl
        | some n => simp [Except.map, agree id n lookup]

theorem Revises.holds_before {t t' : Tree} {change : NodeId → Node → Node}
    (edit : t.Revises t' change) {id : NodeId} {m : Node} (held : t'.Holds id m) :
    ∃ n, t.Holds id n ∧ m = change id n := by
  rw [Holds, edit.node?_eq] at held
  cases looked : t.node? id with
  | error fault => simp [looked, Except.map] at held
  | ok entry =>
      cases entry with
      | none => simp [looked, Except.map] at held
      | some n => exact ⟨n, looked, by simpa [looked, Except.map] using held.symm⟩

theorem set_of_holds {t : Tree} {id : Nat} {n : Node} (held : t.Holds id n) (m : Node) :
    ∃ t', t.set id (some m) = .ok t' ∧ t.Revises t' fun j x => if j = id then m else x := by
  have positive := held.ne_zero
  have bound := held.le_size
  have inside : ¬ (id = 0 ∨ t.size < id) := by omega
  refine ⟨{ t with nodes := t.nodes.setIfInBounds (id - 1) (some m) }, ?_, rfl, ?_, ?_⟩
  · rw [set, if_neg inside]
  · simp [size]
  · intro (j : Nat)
    by_cases same : j = id
    · subst same
      have present : j - 1 < t.nodes.size := by
        rw [size] at bound
        omega
      rw [held]
      simp [node?, positive, present, Except.map]
    · simp only [if_neg same]
      rw [← (Revises.refl t).node?_eq]
      by_cases zero : j = 0
      · simp [zero, node?_zero]
      · have other : id - 1 ≠ j - 1 := by omega
        simp [node?, zero, other]

/-! ## Properties of all forms -/

def Throughout (P : Form → Prop) (t : Tree) : Prop :=
  ∀ id n, t.Holds id n → P n.form

section Throughout
variable {P : Form → Prop} {t : Tree} (throughout : t.Throughout P)
include throughout

theorem Throughout.push {n : Node} (new : P n.form) : (t.push n).1.Throughout P := by
  intro id m held
  rcases holds_of_push held with rfl | old
  · exact new
  · exact throughout id m old

theorem Throughout.set {u : Tree} {id : NodeId} {n m : Node} (held : t.Holds id n)
    (written : t.set id (some m) = .ok u) (new : P m.form) : u.Throughout P := by
  obtain ⟨v, run, edit⟩ := set_of_holds held m
  obtain rfl := Except.ok.inj (run.symm.trans written)
  intro j x there
  obtain ⟨y, before, rfl⟩ := edit.holds_before there
  split
  · exact new
  · exact throughout j y before

end Throughout

end Source.Tree

end LiteralHoist
