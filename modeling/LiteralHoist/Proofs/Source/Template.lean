import LiteralHoist.Proofs.Source.Order
import LiteralHoist.Proofs.Text.Join

/-!
# Templates

The text of a node is a template: fixed texts, and between them the texts of the leaves below the
node, which are literals and names.  The fixed texts do not depend on what the leaves are, and the
leaves come in the order of a walk.

`Displays` says this of a function that shows a part of a tree.  It compares the trees that differ
in their leaves only, so that what a leaf is replaced by shows in the place of the leaf and nowhere
else.
-/

set_option autoImplicit false

namespace LiteralHoist

namespace Source

/-! ## Pieces -/

/-- A part of a template: a fixed text, or the text of a leaf. -/
inductive Piece where
  | text (s : Text)
  | leaf (id : NodeId)
  deriving DecidableEq

def Piece.fill (shown : NodeId → Text) : Piece → Text
  | .text s => s
  | .leaf id => shown id

def Piece.leaf? : Piece → Option NodeId
  | .text _ => none
  | .leaf id => some id

def fill (shown : NodeId → Text) (pieces : List Piece) : Text :=
  Text.join (pieces.map (Piece.fill shown))

def leavesIn (pieces : List Piece) : List NodeId :=
  pieces.filterMap Piece.leaf?

section Pieces
variable {shown other : NodeId → Text} {pieces : List Piece}

@[simp] theorem fill_nil : fill shown [] = Text.ofString "" :=
  rfl

@[simp] theorem fill_cons (p : Piece) :
    fill shown (p :: pieces) = p.fill shown ++ fill shown pieces :=
  Text.join_cons _ _

@[simp] theorem fill_append (first second : List Piece) :
    fill shown (first ++ second) = fill shown first ++ fill shown second := by
  rw [fill, List.map_append, Text.join_append]
  rfl

@[simp] theorem leavesIn_nil : leavesIn [] = [] :=
  rfl

@[simp] theorem leavesIn_text (s : Text) : leavesIn (.text s :: pieces) = leavesIn pieces :=
  rfl

@[simp] theorem leavesIn_leaf (id : NodeId) :
    leavesIn (.leaf id :: pieces) = id :: leavesIn pieces :=
  rfl

@[simp] theorem leavesIn_append (first second : List Piece) :
    leavesIn (first ++ second) = leavesIn first ++ leavesIn second :=
  List.filterMap_append

theorem fill_congr (agree : ∀ id ∈ leavesIn pieces, shown id = other id) :
    fill shown pieces = fill other pieces := by
  induction pieces with
  | nil => rfl
  | cons p rest ih =>
      cases p with
      | text s =>
          rw [fill_cons, fill_cons, ih agree]
          rfl
      | leaf id =>
          rw [leavesIn_leaf, List.forall_mem_cons] at agree
          rw [fill_cons, fill_cons, ih agree.2]
          exact congrArg (· ++ _) agree.1

end Pieces

/-! ## Larger templates -/

def between (opening : Text) (pieces : List Piece) (closing : Text) : List Piece :=
  .text opening :: (pieces ++ [.text closing])

@[simp] theorem fill_between {shown : NodeId → Text} (opening closing : Text)
    (pieces : List Piece) :
    fill shown (between opening pieces closing) = opening ++ fill shown pieces ++ closing := by
  rw [between, fill_cons, fill_append, fill_cons, fill_nil, Text.append_empty, Text.append_assoc]
  rfl

@[simp] theorem leavesIn_between (opening closing : Text) (pieces : List Piece) :
    leavesIn (between opening pieces closing) = leavesIn pieces := by
  simp [between]

/-- Templates one after the other, with a separator between them. -/
def separated (separator : Text) (list : List (List Piece)) : List Piece :=
  [.text separator].intercalate list

section Lists
variable {shown : NodeId → Text} (list : List (List Piece))

theorem fill_separated (separator : Text) :
    fill shown (separated separator list) = Text.intercalate separator (list.map (fill shown)) := by
  induction list with
  | nil => rfl
  | cons first rest ih =>
      cases rest with
      | nil =>
          rw [separated, List.intercalate_singleton]
          exact (Text.intercalate_singleton separator (fill shown first)).symm
      | cons second rest =>
          rw [List.map_cons, List.map_cons, Text.intercalate_cons_cons, ← List.map_cons, ← ih,
            separated, List.intercalate_cons_cons, fill_append, fill_append, fill_cons, fill_nil,
            Text.append_empty]
          rfl

theorem leavesIn_separated (separator : Text) :
    leavesIn (separated separator list) = list.flatMap leavesIn := by
  induction list with
  | nil => rfl
  | cons first rest ih =>
      cases rest with
      | nil => simp [separated]
      | cons second rest =>
          rw [List.flatMap_cons, ← ih, separated, List.intercalate_cons_cons, leavesIn_append,
            leavesIn_append]
          simp [separated]

theorem fill_flatten :
    fill shown list.flatten = Text.join (list.map (fill shown)) := by
  induction list with
  | nil => rfl
  | cons first rest ih => rw [List.flatten_cons, fill_append, ih, List.map_cons, Text.join_cons]

theorem leavesIn_flatten : leavesIn list.flatten = list.flatMap leavesIn :=
  List.filterMap_flatten

theorem fill_flatMap (decorate : List Piece → List Piece) :
    fill shown (list.flatMap decorate) =
      Text.join (list.map fun ps => fill shown (decorate ps)) := by
  rw [List.flatMap, fill_flatten, List.map_map]
  rfl

theorem leavesIn_flatMap (decorate : List Piece → List Piece) :
    leavesIn (list.flatMap decorate) = list.flatMap fun ps => leavesIn (decorate ps) :=
  List.filterMap_flatMap

end Lists

/-! ## The place of a leaf -/

def before (id : NodeId) (pieces : List Piece) : List Piece :=
  pieces.takeWhile (· ≠ .leaf id)

def after (id : NodeId) (pieces : List Piece) : List Piece :=
  (pieces.dropWhile (· ≠ .leaf id)).tail

section Place
variable {id : NodeId} {pieces : List Piece}

theorem split_at_leaf (member : id ∈ leavesIn pieces) :
    pieces = before id pieces ++ .leaf id :: after id pieces := by
  induction pieces with
  | nil => simp at member
  | cons p rest ih =>
      by_cases here : p = .leaf id
      · simp [before, after, here]
      · have later : id ∈ leavesIn rest := by
          cases p with
          | text s => exact member
          | leaf i => exact (List.mem_cons.mp member).resolve_left fun same => here (same ▸ rfl)
        simpa [before, after, here] using ih later

theorem before_cons_of_ne {p : Piece} (other : p ≠ .leaf id) :
    before id (p :: pieces) = p :: before id pieces := by
  simp [before, other]

/-- The texts of leaves stand one after the other, in the order of the template. -/
theorem pairwise_before (shown : NodeId → Text) (nodup : (leavesIn pieces).Nodup) :
    (leavesIn pieces).Pairwise fun a b =>
      (fill shown (before a pieces)).size + (shown a).size ≤
        (fill shown (before b pieces)).size := by
  induction pieces with
  | nil => exact .nil
  | cons p rest ih =>
      cases p with
      | text s =>
          refine (ih nodup).imp fun {a b} ordered => ?_
          rw [before_cons_of_ne (by simp), before_cons_of_ne (by simp), fill_cons, fill_cons,
            Text.size_append, Text.size_append]
          omega
      | leaf i =>
          obtain ⟨fresh, nodupRest⟩ := List.nodup_cons.mp nodup
          have other {a : NodeId} (member : a ∈ leavesIn rest) : Piece.leaf i ≠ .leaf a := by
            rintro ⟨rfl⟩
            exact fresh member
          refine List.pairwise_cons.mpr ⟨fun b member => ?_, ?_⟩
          · have start : before i (.leaf i :: rest) = [] := by simp [before]
            rw [start, before_cons_of_ne (other member), fill_cons, Text.size_append]
            change 0 + (shown i).size ≤ (shown i).size + _
            omega
          · refine List.Pairwise.imp_of_mem (fun {a b} first second ordered => ?_) (ih nodupRest)
            rw [before_cons_of_ne (other first), before_cons_of_ne (other second), fill_cons,
              fill_cons, Text.size_append, Text.size_append]
            omega

end Place

/-! ## Leaves -/

def Node.leafText? (n : Node) : Option Text :=
  match n.form with
  | .literal lit => some lit.text
  | .ident name _ _ => some name
  | _ => none

namespace Tree

def leafText (t : Tree) (id : NodeId) : Text :=
  ((t.peek id).bind Node.leafText?).getD ""

def isLeaf (t : Tree) (id : NodeId) : Bool :=
  ((t.peek id).bind Node.leafText?).isSome

inductive LeafOrder (t : Tree) : List NodeId → List NodeId → Prop where
  | nil : LeafOrder t [] []
  | absent {rest later : List NodeId} : LeafOrder t rest later → LeafOrder t (0 :: rest) later
  | leaf {id : NodeId} {n : Node} {s : Text} {rest later : List NodeId} :
      t.Holds id n → n.leafText? = some s → LeafOrder t rest later →
      LeafOrder t (id :: rest) (id :: later)
  | inner {id : NodeId} {n : Node} {rest below later : List NodeId} :
      t.Holds id n → n.leafText? = none → LeafOrder t n.form.places below →
      LeafOrder t rest later → LeafOrder t (id :: rest) (below ++ later)

theorem LeafOrder.append {t : Tree} {ids more leaves others : List NodeId}
    (first : t.LeafOrder ids leaves) (second : t.LeafOrder more others) :
    t.LeafOrder (ids ++ more) (leaves ++ others) := by
  induction first with
  | nil => exact second
  | absent _ ih => exact .absent ih
  | leaf held isLeaf _ ih => exact .leaf held isLeaf ih
  | inner held other below _ _ ih =>
      rw [List.append_assoc]
      exact .inner held other below ih

theorem Holds.leafText_eq {t : Tree} {id : NodeId} {n : Node} {s : Text} (held : t.Holds id n)
    (leaf : n.leafText? = some s) : t.leafText id = s := by
  simp [leafText, held.peek_eq, leaf]

theorem Holds.isLeaf_eq {t : Tree} {id : NodeId} {n : Node} (held : t.Holds id n) :
    t.isLeaf id = n.leafText?.isSome := by
  simp [isLeaf, held.peek_eq]

theorem isLeaf_iff {t : Tree} {id : NodeId} :
    t.isLeaf id = true ↔ ∃ n s, t.Holds id n ∧ n.leafText? = some s := by
  constructor
  · intro checked
    rw [isLeaf, Option.isSome_iff_exists] at checked
    obtain ⟨s, found⟩ := checked
    obtain ⟨n, standing, leaf⟩ := Option.bind_eq_some_iff.mp found
    exact ⟨n, s, holds_of_peek standing, leaf⟩
  · rintro ⟨n, s, held, leaf⟩
    rw [held.isLeaf_eq, leaf]
    rfl

end Tree

theorem Node.children_of_leaf {n : Node} {s : Text} (leaf : n.leafText? = some s) :
    n.form.children = [] := by
  obtain ⟨pos, form⟩ := n
  cases form with
  | literal | ident => rfl
  | _ => contradiction

/-- The leaves below the roots of a forest are those that a walk meets. -/
theorem Tree.LeafOrder.eq_filter {t : Tree} {ids leaves : List NodeId}
    (ordered : t.LeafOrder ids leaves) : ∀ {f : Forest}, f.Follows t →
      f.roots = ids.filter (· ≠ 0) → leaves = f.ids.filter t.isLeaf := by
  -- By induction on the order, since a forest has nothing for the numbers that are absent.
  induction ordered with
  | nil =>
      intro f _ roots
      cases f with
      | nil => rfl
      | cons => simp [Forest.roots] at roots
  | absent _ ih => exact fun follows roots => ih follows (by simpa using roots)
  | @leaf id n s rest later held leaf _ ih =>
      intro f follows roots
      rw [List.filter_cons_of_pos (by simpa using held.ne_zero)] at roots
      cases f with
      | nil => simp [Forest.roots] at roots
      | cons i below rest =>
          obtain ⟨rfl, others⟩ := List.cons.inj roots
          obtain ⟨⟨m, held', children⟩, _, followsRest⟩ := follows
          rw [held'.unique held, Node.children_of_leaf leaf] at children
          have nothing : below = .nil := by
            cases below with
            | nil => rfl
            | cons => simp [Forest.roots] at children
          subst nothing
          simp [Forest.ids, held.isLeaf_eq, leaf, ih followsRest others]
  | @inner id n rest below later held inner _ _ ihBelow ihRest =>
      intro f follows roots
      rw [List.filter_cons_of_pos (by simpa using held.ne_zero)] at roots
      cases f with
      | nil => simp [Forest.roots] at roots
      | cons i part rest =>
          obtain ⟨rfl, others⟩ := List.cons.inj roots
          obtain ⟨⟨m, held', children⟩, followsBelow, followsRest⟩ := follows
          rw [held'.unique held, Form.children] at children
          simp [Forest.ids, held.isLeaf_eq, inner, ihBelow followsBelow children.symm,
            ihRest followsRest others]

/-! ## Other leaves -/

/-- One tree is another with other leaves in the places of leaves. -/
structure Tree.Varies (t t' : Tree) : Prop where
  root_eq : t'.root = t.root
  size_eq : t'.size = t.size
  keeps : ∀ {id n}, t.Holds id n → n.leafText? = none → t'.Holds id n
  leaf : ∀ {id n s}, t.Holds id n → n.leafText? = some s →
    ∃ n' s', t'.Holds id n' ∧ n'.leafText? = some s'

theorem Tree.Varies.refl (t : Tree) : t.Varies t where
  root_eq := rfl
  size_eq := rfl
  keeps held _ := held
  leaf held leaf := ⟨_, _, held, leaf⟩

/-- Overwriting a leaf by another leaf gives a tree with other leaves, of which only the text of
this one is another. -/
theorem Tree.exists_set_leaf {t : Tree} {l : NodeId} (present : t.isLeaf l = true) {n : Node}
    {s : Text} (leaf : n.leafText? = some s) :
    ∃ t', t.set l (some n) = .ok t' ∧ t.Varies t' ∧ t'.leafText l = s ∧
      ∀ id ≠ l, t'.leafText id = t.leafText id := by
  obtain ⟨m, _, held, _⟩ := isLeaf_iff.mp present
  obtain ⟨t', run, edit⟩ := set_of_holds held n
  have here : t'.Holds l n := by simpa using edit.holds held
  refine ⟨t', run, ⟨edit.root_eq, edit.size_eq, fun {id x} there other => ?_,
    fun {id x s'} there leaf' => ?_⟩, here.leafText_eq leaf, fun id other => ?_⟩
  · have apart : id ≠ l := by
      rintro rfl
      rw [there.isLeaf_eq, other] at present
      contradiction
    simpa [apart] using edit.holds there
  · by_cases same : id = l
    · exact ⟨n, s, same ▸ here, leaf⟩
    · exact ⟨x, s', by simpa [same] using edit.holds there, leaf'⟩
  · have unchanged : t'.peek id = t.peek id := by
      rw [peek, peek, edit.node?_eq]
      simp only [if_neg other]
      cases t.node? id with
      | error fault => rfl
      | ok entry => cases entry <;> rfl
    rw [leafText, unchanged, leafText]

/-- A function shows a part of a tree by a template with the leaves below some numbers: it succeeds
whatever the leaves are, and what it gives is the template filled with their texts. -/
def Displays (t : Tree) (run : Tree → Except Fault Text) (ids : List NodeId) : Prop :=
  ∃ pieces, t.LeafOrder ids (leavesIn pieces) ∧
    ∀ t', t.Varies t' → run t' = .ok (fill t'.leafText pieces)

def DisplaysEach (t : Tree) (run : Tree → NodeId → Except Fault Text) (ids : List NodeId) : Prop :=
  ∃ list : List (List Piece), t.LeafOrder ids (list.flatMap leavesIn) ∧
    ∀ t', t.Varies t' → ids.mapM (run t') = .ok (list.map (fill t'.leafText))

section Displays
variable {t : Tree}

theorem displaysEach {run : Tree → NodeId → Except Fault Text} {ids : List NodeId}
    (each : ∀ x ∈ ids, Displays t (fun t' => run t' x) [x]) : DisplaysEach t run ids := by
  induction ids with
  | nil => exact ⟨[], .nil, fun _ _ => rfl⟩
  | cons x rest ih =>
      obtain ⟨pieces, order, here⟩ := each x (by simp)
      obtain ⟨list, orders, later⟩ := ih fun y member => each y (by simp [member])
      refine ⟨pieces :: list, order.append orders, fun t' varies => ?_⟩
      have first : run t' x = .ok (fill t'.leafText pieces) := here t' varies
      rw [List.mapM_cons, first, ok_bind, later t' varies]
      rfl

/-- A leaf is its own template. -/
theorem Displays.leaf {run : Tree → Except Fault Text} {id : NodeId} {n : Node} {s : Text}
    (held : t.Holds id n) (leaf : n.leafText? = some s)
    (shows : ∀ t' n' s', t'.Holds id n' → n'.leafText? = some s' → run t' = .ok s') :
    Displays t run [id] := by
  refine ⟨[.leaf id], .leaf held leaf .nil, fun t' varies => ?_⟩
  obtain ⟨n', s', held', leaf'⟩ := varies.leaf held leaf
  rw [shows t' n' s' held' leaf', fill_cons, fill_nil, Text.append_empty, Piece.fill,
    held'.leafText_eq leaf']

/-- Another node is shown by the leaves below its places. -/
theorem Displays.inner {run : Tree → Except Fault Text} {id : NodeId} {n : Node}
    (held : t.Holds id n) (inner : n.leafText? = none) (pieces : List Piece)
    (order : t.LeafOrder n.form.places (leavesIn pieces))
    (shows : ∀ t', t.Varies t' → t'.Holds id n → run t' = .ok (fill t'.leafText pieces)) :
    Displays t run [id] := by
  refine ⟨pieces, ?_, fun t' varies => shows t' varies (varies.keeps held inner)⟩
  simpa using Tree.LeafOrder.inner held inner order .nil

end Displays

end Source

end LiteralHoist
