import LiteralHoist.Proofs.Source.Forest
import LiteralHoist.Proofs.Source.Trail

/-!
# Preorder

A walk of a tree without cycles shows its visitor the paths of the tree in preorder: a node before
its children, these in source order, and nothing below a node that is not entered.  Nodes may be
shared, and a number may stand in a child place without standing in the tree; such a number is
shown as well, and the walk stops when it is entered.
-/

set_option autoImplicit false

namespace LiteralHoist.Source

namespace Tree

def childList (t : Tree) (id : NodeId) : List NodeId :=
  ((t.peek id).map fun n => n.form.children).getD []

/-- The paths of numbers that stand below a path, each right before the paths below it. -/
inductive Preorder (t : Tree) (enters : Path → Bool) :
    Path → List NodeId → List Path → Prop where
  | nil {above : Path} : Preorder t enters above [] []
  | passed {above : Path} {id : NodeId} {rest : List NodeId} {later : List Path} :
      enters (id :: above) = false → Preorder t enters above rest later →
      Preorder t enters above (id :: rest) ((id :: above) :: later)
  | entered {above : Path} {id : NodeId} {rest : List NodeId} {below later : List Path} :
      enters (id :: above) = true → Preorder t enters (id :: above) (t.childList id) below →
      Preorder t enters above rest later →
      Preorder t enters above (id :: rest) ((id :: above) :: (below ++ later))

inductive Descends (t : Tree) (enters : Path → Bool) (top : Path) : Path → Prop where
  | refl : Descends t enters top top
  | step {above : Path} {parent id : NodeId} : Descends t enters top (parent :: above) →
      enters (parent :: above) = true → t.Child parent id →
      Descends t enters top (id :: parent :: above)

/-- The visitor that enters below some paths and looks at all that it is shown. -/
def watching {σ : Type} (enters : Path → Bool) (look : Path → σ → Except Fault σ) : Visitor σ :=
  fun path seen => do return (enters path, ← look path seen)

def watch {σ : Type} (t : Tree) (enters : Path → Bool) (look : Path → σ → Except Fault σ)
    (seen : σ) (path : Path) : Except Fault σ := do
  let seen ← look path seen
  match path with
  | [] => return seen
  | id :: _ => if enters path && t.size < id then throw (.dangling id) else return seen

/-- No number below a root is below one of its children. -/
def AcyclicBelow (t : Tree) (root : NodeId) : Prop :=
  ∀ id x, t.Below root id → t.Child id x → ¬ t.Below x id

variable {t : Tree}

theorem exists_node? {id : Nat} (bound : id ≤ t.size) : ∃ entry, t.node? id = .ok entry := by
  by_cases absent : id = 0
  · exact ⟨none, absent ▸ t.node?_zero⟩
  · have inside : id - 1 < t.nodes.size := by
      change id - 1 < t.size
      omega
    exact ⟨_, by rw [node?, if_neg absent, Array.getElem?_eq_getElem inside]⟩

theorem children_eq_childList (id : Nat) :
    t.children id = if t.size < id then .error (.dangling id) else .ok (t.childList id) := by
  by_cases beyond : t.size < id
  · rw [if_pos beyond, children, form?, node?_of_size_lt beyond]
    rfl
  · obtain ⟨entry, there⟩ := exists_node? (Nat.le_of_not_lt beyond)
    rw [if_neg beyond, children, form?, childList, peek, there]
    cases entry <;> rfl

theorem mem_childList {id x : NodeId} : x ∈ t.childList id ↔ t.Child id x := by
  constructor
  · intro member
    rw [childList] at member
    cases there : t.peek id with
    | none => simp [there] at member
    | some n => exact ⟨n, holds_of_peek there, by simpa [there] using member⟩
  · rintro ⟨n, held, member⟩
    simpa [childList, held.peek_eq] using member

theorem Child.ne_zero {p id : NodeId} (child : t.Child p id) : id ≠ 0 := by
  obtain ⟨n, _, member⟩ := child
  simpa using (List.mem_filter.mp member).2

theorem Preorder.unique {enters : Path → Bool} {above : Path} {ids : List NodeId}
    {paths : List Path} (first : t.Preorder enters above ids paths) :
    ∀ {other : List Path}, t.Preorder enters above ids other → paths = other := by
  induction first with
  | nil =>
      intro other second
      cases second
      rfl
  | passed closed _ ih =>
      intro other second
      cases second with
      | passed _ later => rw [ih later]
      | entered opened => simp [closed] at opened
  | entered opened _ _ ihBelow ihLater =>
      intro other second
      cases second with
      | passed closed => simp [closed] at opened
      | entered _ below later => rw [ihBelow below, ihLater later]

theorem Descends.first {enters : Path → Bool} {id : NodeId} {above path : Path}
    (descends : t.Descends enters (id :: above) path) :
    path = id :: above ∨ enters (id :: above) = true ∧
      ∃ x, t.Child id x ∧ t.Descends enters (x :: id :: above) path := by
  induction descends with
  | refl => exact .inl rfl
  | step _ opened child ih =>
      right
      rcases ih with same | ⟨openedTop, x, childTop, lower⟩
      · obtain ⟨rfl, rfl⟩ := List.cons.inj same
        exact ⟨opened, _, child, .refl⟩
      · exact ⟨openedTop, x, childTop, .step lower opened child⟩

theorem Descends.trans {enters : Path → Bool} {top middle path : Path}
    (upper : t.Descends enters top middle) (lower : t.Descends enters middle path) :
    t.Descends enters top path := by
  induction lower with
  | refl => exact upper
  | step _ opened child ih => exact .step ih opened child

theorem Descends.exists_below {enters : Path → Bool} {root : NodeId} {path : Path}
    (descends : t.Descends enters [root] path) :
    ∃ id above, path = id :: above ∧ t.Below root id := by
  induction descends with
  | refl => exact ⟨root, [], rfl, .refl⟩
  | step _ _ child ih =>
      obtain ⟨parent, above, same, lower⟩ := ih
      obtain ⟨rfl, rfl⟩ := List.cons.inj same
      exact ⟨_, _, rfl, .step lower child⟩

theorem Preorder.mem_iff {enters : Path → Bool} {above : Path} {ids : List NodeId}
    {paths : List Path} (order : t.Preorder enters above ids paths) {path : Path} :
    path ∈ paths ↔ ∃ id ∈ ids, t.Descends enters (id :: above) path := by
  induction order with
  | nil => simp
  | @passed above id rest later closed _ ih =>
      have only : t.Descends enters (id :: above) path ↔ path = id :: above := by
        constructor
        · intro descends
          rcases descends.first with same | ⟨opened, _⟩
          · exact same
          · simp [closed] at opened
        · rintro rfl
          exact .refl
      simp [ih, only]
  | @entered above id rest below later opened _ _ ihBelow ihLater =>
      have either : t.Descends enters (id :: above) path ↔ path = id :: above ∨
          ∃ x ∈ t.childList id, t.Descends enters (x :: id :: above) path := by
        simp only [mem_childList]
        constructor
        · intro descends
          exact descends.first.imp_right And.right
        · rintro (rfl | ⟨x, child, lower⟩)
          · exact .refl
          · exact .trans (.step .refl opened child) lower
      simp [ihBelow, ihLater, either, or_assoc]

/-! ## How deep a walk goes -/

/-- A number that a walk from a root can reach at the end of a path, without coming back. -/
structure Reachable (t : Tree) (root : NodeId) (above : Path) (id : NodeId) : Prop where
  below : t.Below root id
  fresh : ∀ a ∈ above, ¬ t.Below id a

structure Within (t : Tree) (above : Path) : Prop where
  nodup : above.Nodup
  inside : ∀ a ∈ above, a ∈ Finset.Icc 1 t.size

theorem Within.length_le {above : Path} (within : t.Within above) : above.length ≤ t.size := by
  have subset : above.toFinset ⊆ Finset.Icc 1 t.size := by
    intro a member
    exact within.inside a (List.mem_toFinset.mp member)
  have bound := Finset.card_le_card subset
  rw [List.toFinset_card_of_nodup within.nodup, Nat.card_Icc] at bound
  omega

variable {root : NodeId}

theorem Reachable.notMem {above : Path} {id : NodeId} (reachable : t.Reachable root above id) :
    id ∉ above := by
  intro member
  exact reachable.fresh id member .refl

theorem Reachable.child (acyclic : t.AcyclicBelow root) {above : Path} {id x : NodeId}
    (reachable : t.Reachable root above id) (child : t.Child id x) :
    t.Reachable root (id :: above) x := by
  refine ⟨.step reachable.below child, ?_⟩
  intro a member lower
  rcases List.mem_cons.mp member with rfl | member
  · exact acyclic a x reachable.below child lower
  · exact reachable.fresh a member (.trans (.step .refl child) lower)

theorem Within.cons {above : Path} (within : t.Within above) {id : Nat}
    (reachable : t.Reachable root above id) (present : id ≠ 0) (bound : id ≤ t.size) :
    t.Within (id :: above) := by
  refine ⟨List.nodup_cons.mpr ⟨reachable.notMem, within.nodup⟩, ?_⟩
  intro a member
  rcases List.mem_cons.mp member with rfl | member
  · exact Finset.mem_Icc.mpr ⟨Nat.pos_of_ne_zero present, bound⟩
  · exact within.inside a member

/-! ## Tours in preorder -/

variable (t root) in
def ToursInOrder (enters : Path → Bool) (depth : Nat) (above : Path) (ids : List NodeId) : Prop :=
  ∃ paths, t.Preorder enters above ids paths ∧
    ∀ (σ : Type) (look : Path → σ → Except Fault σ) (start : σ),
      ids.foldlM (t.tour (watching enters look) depth above) start =
        paths.foldlM (t.watch enters look) start

theorem ToursInOrder.cons {enters : Path → Bool} {depth : Nat} {above : Path} {id : Nat}
    {rest : List NodeId}
    (below : id ≤ t.size → t.ToursInOrder enters depth (id :: above) (t.childList id))
    (later : t.ToursInOrder enters (depth + 1) above rest) :
    t.ToursInOrder enters (depth + 1) above (id :: rest) := by
  obtain ⟨laterPaths, laterOrder, laterRun⟩ := later
  cases opened : enters (id :: above) with
  | false =>
      refine ⟨_, .passed opened laterOrder, fun σ look start => ?_⟩
      rw [List.foldlM_cons, List.foldlM_cons, tour, watching, watch, opened]
      cases look (id :: above) start with
      | error fault => rfl
      | ok seen => exact laterRun σ look seen
  | true =>
      by_cases beyond : t.size < id
      · have nothing : t.childList id = [] := by
          rw [childList, peek, node?_of_size_lt beyond]
          rfl
        have below : t.Preorder enters (id :: above) (t.childList id) [] := by
          rw [nothing]
          exact .nil
        refine ⟨_, .entered opened below laterOrder, fun σ look start => ?_⟩
        rw [List.foldlM_cons, List.foldlM_cons, tour, watching, watch, opened,
          children_eq_childList, if_pos beyond]
        cases look (id :: above) start with
        | error fault => rfl
        | ok seen =>
            simp only [ok_bind, if_true, beyond, decide_true, Bool.and_self]
            rfl
      · obtain ⟨belowPaths, belowOrder, belowRun⟩ := below (Nat.le_of_not_lt beyond)
        refine ⟨_, .entered opened belowOrder laterOrder, fun σ look start => ?_⟩
        rw [List.foldlM_cons, List.foldlM_cons, tour, watching, watch, opened,
          children_eq_childList, if_neg beyond]
        cases look (id :: above) start with
        | error fault => rfl
        | ok seen =>
            simp only [ok_bind, belowRun, List.foldlM_append, beyond]
            exact bind_congr (laterRun σ look)

theorem toursInOrder (acyclic : t.AcyclicBelow root) (enters : Path → Bool) (depth : Nat) :
    ∀ above : Path, t.Within above → above.length + depth = t.size + 1 →
      ∀ ids : List NodeId, (∀ id ∈ ids, id ≠ 0 ∧ t.Reachable root above id) →
        t.ToursInOrder enters depth above ids := by
  induction depth with
  | zero =>
      intro above within length ids _
      have bound := within.length_le
      omega
  | succ depth ih =>
      intro above within length ids
      induction ids with
      | nil => exact fun _ => ⟨[], .nil, fun σ look start => rfl⟩
      | cons id rest ihRest =>
          intro reachable
          obtain ⟨⟨present, here⟩, later⟩ := List.forall_mem_cons.mp reachable
          refine .cons (fun bound => ?_) (ihRest later)
          refine ih (id :: above) (within.cons here present bound) ?_ _ fun x member => ?_
          · rw [List.length_cons]
            omega
          · have child := mem_childList.mp member
            exact ⟨child.ne_zero, here.child acyclic child⟩

/-- On the paths of a preorder, looking fails only where the look itself does, if every number that
can be reached is in the tree. -/
theorem foldlM_watch {σ : Type} (whole : ∀ id, t.Below root id → id ≤ t.size)
    {enters : Path → Bool} (look : Path → σ → Except Fault σ) {paths : List Path}
    (below : ∀ path ∈ paths, t.Descends enters [root] path) (start : σ) :
    paths.foldlM (t.watch enters look) start =
      paths.foldlM (fun seen path => look path seen) start := by
  induction paths generalizing start with
  | nil => rfl
  | cons path rest ih =>
      obtain ⟨here, later⟩ := List.forall_mem_cons.mp below
      rw [List.foldlM_cons, List.foldlM_cons, watch]
      obtain ⟨id, above, rfl, lower⟩ := here.exists_below
      have inside : ¬ t.size < id := Nat.not_lt.mpr (whole id lower)
      simp only [inside, decide_false, Bool.and_false, Bool.false_eq_true, if_false, bind_pure]
      exact bind_congr fun seen => ih later seen

/-- Whatever its buffer grows by, a walk of a tree without cycles shows the visitor the paths of
the preorder and nothing else, which are the paths down from the root through entered nodes. -/
theorem walks_in_preorder (acyclic : t.AcyclicBelow root) (enters : Path → Bool) :
    ∃ paths, t.Preorder enters [] ([root].filter (· ≠ 0)) paths ∧
      (∀ other, t.Preorder enters [] ([root].filter (· ≠ 0)) other → other = paths) ∧
      (∀ path, path ∈ paths ↔ root ≠ 0 ∧ t.Descends enters [root] path) ∧
      ∀ (growth : Growth) (σ : Type) (look : Path → σ → Except Fault σ) (start : σ),
        t.walkGrowing growth (watching enters look) root start =
            paths.foldlM (t.watch enters look) start ∧
          ((∀ id, t.Below root id → id ≤ t.size) →
            t.walkGrowing growth (watching enters look) root start =
              paths.foldlM (fun seen path => look path seen) start) := by
  have start : ∀ id ∈ [root].filter (· ≠ 0), id ≠ 0 ∧ t.Reachable root [] id := by
    intro id member
    obtain ⟨same, present⟩ := List.mem_filter.mp member
    obtain rfl := List.mem_singleton.mp same
    exact ⟨by simpa using present, .refl, by simp⟩
  obtain ⟨paths, order, run⟩ := toursInOrder acyclic enters (t.size + 1) [] ⟨.nil, by simp⟩
    (Nat.zero_add _) _ start
  have members : ∀ path, path ∈ paths ↔ root ≠ 0 ∧ t.Descends enters [root] path := by
    intro path
    rw [order.mem_iff]
    constructor
    · rintro ⟨id, member, descends⟩
      obtain ⟨same, present⟩ := List.mem_filter.mp member
      obtain rfl := List.mem_singleton.mp same
      exact ⟨by simpa using present, descends⟩
    · rintro ⟨present, descends⟩
      exact ⟨root, List.mem_filter.mpr ⟨by simp, by simpa using present⟩, descends⟩
  refine ⟨paths, order, fun other second => (order.unique second).symm, members, ?_⟩
  intro growth σ look first
  have walked : t.walkGrowing growth (watching enters look) root first =
      paths.foldlM (t.watch enters look) first := by
    rw [walkGrowing_eq_tour, ← run]
    by_cases absent : root = 0
    · simp [absent, pure_eq_ok]
    · simp only [absent, List.filter_cons, List.filter_nil, ne_eq, not_false_eq_true, decide_true,
        if_true, if_false, List.foldlM_cons, List.foldlM_nil]
      exact (bind_pure _).symm
  refine ⟨walked, fun whole => ?_⟩
  rw [walked]
  exact foldlM_watch whole look (fun path member => ((members path).mp member).2) first

/-! ## A tree with shared nodes -/

theorem acyclicBelow_of_descending
    (descending : ∀ p < t.size + 1, ∀ id ∈ t.childList p, id < p) : t.AcyclicBelow root := by
  have less : ∀ (p id : Nat), t.Child p id → id < p := by
    intro p id child
    have bound : p ≤ t.size := by
      obtain ⟨n, held, _⟩ := child
      exact held.le_size
    exact descending p (Nat.lt_succ_of_le bound) id (mem_childList.mpr child)
  have atMost : ∀ {top id : Nat}, t.Below top id → id ≤ top := by
    intro top id lower
    induction lower with
    | refl => exact Nat.le_refl _
    | step _ child ih => exact Nat.le_trans (Nat.le_of_lt (less _ _ child)) ih
  intro id x _ child lower
  exact absurd (less id x child) (Nat.not_lt.mpr (atMost lower))

/-- The name is an operand twice, and the parentheses are an operand and an argument. -/
def sharingTree : Tree where
  root := 6
  nodes := #[some { form := .ident "a" "" none }, some { form := .parens 1 },
    some { form := .unary "-" 2 }, some { form := .binary "+" 3 1 "" },
    some { form := .call 4 "f" [2] "" }, some { form := .exprStmt 5 }]

def outsideArguments (path : Path) : Bool :=
  path ≠ [2, 5, 6]

theorem sharingTree_in_preorder :
    sharingTree.AcyclicBelow 6 ∧
      ∀ growth, sharingTree.walkGrowing growth
          (watching outsideArguments fun path seen => .ok (seen ++ [path])) 6 [] =
        .ok [[6], [5, 6], [4, 5, 6], [3, 4, 5, 6], [2, 3, 4, 5, 6], [1, 2, 3, 4, 5, 6],
          [1, 4, 5, 6], [2, 5, 6]] := by
  have acyclic : sharingTree.AcyclicBelow 6 := acyclicBelow_of_descending (by decide)
  obtain ⟨paths, _, _, _, walked⟩ := walks_in_preorder acyclic outsideArguments
  have any := fun growth => (walked growth _ (fun path seen => .ok (seen ++ [path])) []).1
  refine ⟨acyclic, fun growth => ?_⟩
  rw [any growth, ← any .doubling]
  rfl

end Tree

end LiteralHoist.Source
