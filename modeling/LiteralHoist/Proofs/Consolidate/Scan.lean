import LiteralHoist.Consolidate.Run
import LiteralHoist.Proofs.Source.Shape

/-!
# What is found in a class

On a tree with a shape, each search through a class succeeds, and its result is a function of the
forest and of the nodes that stand at its numbers: the classes of the unit, whether a type is
mentioned, the names that are bound, the references to a field, the occurrences of literals, and
the constants.
-/

set_option autoImplicit false

namespace LiteralHoist.Consolidate

open LiteralHoist.Source

/-- A class stands at a number of a shaped tree, with a forest below it. -/
structure ClassIn (t : Tree) (f : Forest) (c : NodeId) (below : Forest) (pos : Position)
    (d : ClassDecl) : Prop where
  shaped : Shaped t f
  occurs : f.Occurs c below
  held : t.Holds c ⟨pos, .classDecl d⟩

section Part
variable {t : Tree} {f below : Forest} {c : NodeId} {pos : Position} {d : ClassDecl}

theorem ClassIn.follows (here : ClassIn t f c below pos d) :
    (Forest.cons c below .nil).Follows t :=
  here.occurs.follows here.shaped.follows

theorem ClassIn.nodup (here : ClassIn t f c below pos d) :
    (Forest.cons c below .nil).ids.Nodup :=
  here.occurs.nodup here.shaped.nodup

theorem ClassIn.mem (here : ClassIn t f c below pos d) : c ∈ f.ids :=
  here.occurs.sublist.subset (by simp)

theorem ClassIn.part_subset (here : ClassIn t f c below pos d) :
    (Forest.cons c below .nil).ids ⊆ f.ids := by
  rw [Forest.ids_single]
  exact here.occurs.sublist.subset

theorem ClassIn.isClass (here : ClassIn t f c below pos d) : t.IsClass c :=
  ⟨pos, d, here.held⟩

/-- The forest below a class is determined by the tree. -/
theorem ClassIn.below_unique {f' within : Forest} {pos' : Position} {d' : ClassDecl}
    (here : ClassIn t f c below pos d) (there : ClassIn t f' c within pos' d') :
    within = below := by
  have same := here.follows.unique there.follows (by simp [Forest.roots])
  simp only [Forest.cons.injEq] at same
  exact same.2.1.symm

end Part

theorem Shaped.exists_classIn {t : Tree} {f : Forest} (shaped : Shaped t f) {c : NodeId}
    (member : c ∈ f.ids) {pos : Position} {d : ClassDecl} (held : t.Holds c ⟨pos, .classDecl d⟩) :
    ∃ below, ClassIn t f c below pos d := by
  obtain ⟨below, occurs⟩ := Forest.occurs_of_mem member
  exact ⟨below, shaped, occurs, held⟩

theorem innermost?_eq {t : Tree} {id : NodeId} {n : Node} (held : t.Holds id n) (up : Path) :
    t.innermost? (id :: up) = .ok (some n) :=
  held

theorem held_of_visit {t : Tree} {f : Forest} (follows : f.Follows t) {above : Path}
    {v : NodeId × Path} (member : v ∈ f.visits above) : ∃ n, t.Holds v.1 n :=
  follows.holds (Forest.fst_mem_of_visits member)

theorem classes_eq {t : Tree} {f : Forest} (shaped : Shaped t f) :
    t.classes t.root = .ok (f.ids.filter fun id => isClassEntry (t.peek id)) := by
  obtain ⟨below, rfl⟩ := Shaped.eq_cons shaped
  rw [Tree.classes]
  refine Forest.walk_select _ _ shaped.follows shaped.nodup fun v member gathered => ?_
  obtain ⟨n, held⟩ := held_of_visit shaped.follows member
  simp only [innermost?_eq held, ok_bind, held.peek_eq]
  obtain ⟨pos, form⟩ := n
  cases form <;> rfl

def mentions (accepts : Text → Bool) : Option Node → Bool
  | none => false
  | some n => n.form.mentionedType ≠ "" && accepts n.form.mentionedType

theorem usesType_eq {t : Tree} {f : Forest} (shaped : Shaped t f) (accepts : Text → Bool) :
    t.usesType accepts t.root = .ok (f.ids.any fun id => mentions accepts (t.peek id)) := by
  obtain ⟨below, rfl⟩ := Shaped.eq_cons shaped
  rw [Tree.usesType, Forest.walk_eq_run _ shaped.follows shaped.nodup]
  refine (Forest.run_search _ (fun id => mentions accepts (t.peek id)) _ [] false
    fun v member => ⟨rfl, ?_⟩).trans (by simp)
  obtain ⟨n, held⟩ := held_of_visit shaped.follows member
  simp only [Bool.false_eq_true, if_false, innermost?_eq held, ok_bind, held.peek_eq]
  rfl

/-- A type is used exactly if a node of the unit mentions it; a node that mentions none does not
count, whatever is accepted. -/
theorem usesType_iff {t : Tree} {f : Forest} (shaped : Shaped t f) {accepts : Text → Bool} :
    t.usesType accepts t.root = .ok true ↔ ∃ id n, t.Below t.root id ∧ t.Holds id n ∧
      n.form.mentionedType ≠ "" ∧ accepts n.form.mentionedType = true := by
  rw [usesType_eq shaped, Except.ok.injEq, List.any_eq_true]
  constructor
  · rintro ⟨id, member, found⟩
    obtain ⟨n, held⟩ := shaped.follows.holds member
    rw [held.peek_eq, mentions, Bool.and_eq_true, decide_eq_true_iff] at found
    exact ⟨id, n, shaped.below_root.mpr member, held, found⟩
  · rintro ⟨id, n, inUnit, held, found⟩
    refine ⟨id, shaped.below_root.mp inUnit, ?_⟩
    rw [held.peek_eq, mentions, Bool.and_eq_true, decide_eq_true_iff]
    exact found

theorem classAt_eq {t : Tree} {c : NodeId} {pos : Position} {d : ClassDecl}
    (held : t.Holds c ⟨pos, .classDecl d⟩) : classAt t c = .ok d := by
  rw [classAt, held.classAt?_eq, ok_bind]
  rfl

section Names
variable {t : Tree} {f below : Forest} {c : NodeId} {pos : Position} {d : ClassDecl}

theorem boundNames_eq (here : ClassIn t f c below pos d) :
    boundNames t c = .ok ((Forest.cons c below .nil).ids.filterMap
      fun id => boundName d.fqn (t.peek id)) := by
  rw [boundNames, classAt_eq here.held, ok_bind, List.filterMap_eq_flatMap_toList]
  refine Forest.walk_gather_ids _ _ here.follows here.nodup fun v member gathered => ?_
  obtain ⟨n, held⟩ := held_of_visit here.follows member
  simp only [innermost?_eq held, ok_bind, held.peek_eq]
  cases boundName d.fqn (some n) <;> rfl

theorem references_eq (here : ClassIn t f c below pos d) (fqn name : Text) :
    references t c fqn name = .ok ((Forest.cons c below .nil).ids.filter
      fun id => refersTo fqn name (t.peek id)) := by
  rw [references]
  refine Forest.walk_select _ _ here.follows here.nodup fun v member gathered => ?_
  obtain ⟨n, held⟩ := held_of_visit here.follows member
  simp only [held.node?_eq, ok_bind, held.peek_eq]
  rfl

end Names

def contextAt (t : Tree) : Path → Context
  | [] => .other
  | id :: up =>
    if decidesContext (t.peek id) then contextBelow (t.peek id) else contextAt t up

def siteAt (t : Tree) (settings : Settings) (v : NodeId × Path) : List (Text × NodeId) :=
  match t.peek v.1 with
  | some ⟨_, .literal lit⟩ =>
    if lit.isString && (contextAt t v.2).counts settings then [(lit.value, v.1)] else []
  | _ => []

theorem firstAccepted_eq {t : Tree} {up : Path} : ∀ index : Nat,
    (∀ p ∈ up, ∃ n, t.Holds p n) →
    ∃ found, t.firstAccepted decidesContext index up = .ok found ∧
      match found with
      | none => contextAt t up = .other
      | some (id, _) => ∃ n, t.Holds id n ∧ contextBelow (some n) = contextAt t up := by
  induction up with
  | nil => intro index _; exact ⟨none, rfl, rfl⟩
  | cons id rest ih =>
      intro index held
      obtain ⟨n, here⟩ := held id (by simp)
      cases decides : decidesContext (some n) with
      | true =>
          refine ⟨some (id, index), ?_, n, here, ?_⟩
          · simp [Tree.firstAccepted, here.node?_eq, ok_bind, decides, pure_eq_ok]
          · simp [contextAt, here.peek_eq, decides]
      | false =>
          obtain ⟨found, search, context⟩ :=
            ih (index + 1) fun p member => held p (by simp [member])
          refine ⟨found, ?_, ?_⟩
          · simp [Tree.firstAccepted, here.node?_eq, ok_bind, decides, search]
          · simpa [contextAt, here.peek_eq, decides] using context

theorem contextOf_eq {t : Tree} {id : NodeId} {up : Path} (held : ∀ p ∈ up, ∃ n, t.Holds p n) :
    contextOf t (id :: up) = .ok (contextAt t up) := by
  obtain ⟨found, search, context⟩ := firstAccepted_eq 1 held
  rw [contextOf, Tree.nearest, List.tail_cons, search, ok_bind]
  cases found with
  | none => rw [context]; rfl
  | some pair =>
      obtain ⟨p, index⟩ := pair
      obtain ⟨n, here, same⟩ := context
      simp only [here.node?_eq, ok_bind, same]
      rfl

/-- What belongs to a class, clipped at nested classes. -/
def ownPart (t : Tree) (c : NodeId) (below : Forest) : Forest :=
  .cons c (below.clip t.staysIn) .nil

section Sites
variable {t : Tree} {f below : Forest} {c : NodeId} {pos : Position} {d : ClassDecl}

theorem sites_eq (here : ClassIn t f c below pos d) (settings : Settings) :
    sites t settings c = .ok (((ownPart t c below).visits []).flatMap (siteAt t settings)) := by
  have clipped : (Forest.cons c below .nil).clip (fun id => t.staysIn id || id == c) =
      ownPart t c below := by
    have nested : below.clip (fun id => t.staysIn id || id == c) = below.clip t.staysIn := by
      refine Forest.clip_congr fun id member => ?_
      have nodup := here.nodup
      rw [Forest.ids_single, List.nodup_cons] at nodup
      have other : id ≠ c := fun same => nodup.1 (same ▸ member)
      simp [other]
    simp [Forest.clip, nested, ownPart]
  rw [sites, ← clipped]
  refine Forest.walk_gather _ _ _ here.follows here.nodup fun v member gathered => ?_
  obtain ⟨n, held⟩ := held_of_visit here.follows member
  have above : ∀ p ∈ v.2, ∃ n, t.Holds p n := by
    intro p onPath
    rcases Forest.mem_of_visits member p onPath with up | inside
    · simp at up
    · exact here.follows.holds inside
  simp only [innermost?_eq held, ok_bind]
  obtain ⟨pos, form⟩ := n
  cases form with
  | classDecl decl => simp [Tree.staysIn, siteAt, held.peek_eq, isClassEntry, pure_eq_ok]
  | literal lit =>
      cases isString : lit.isString with
      | false =>
          simp [Tree.staysIn, siteAt, held.peek_eq, isClassEntry, pure_eq_ok, isString]
      | true =>
          simp only [contextOf_eq above, ok_bind]
          cases counts : (contextAt t v.2).counts settings <;>
            simp [Tree.staysIn, siteAt, held.peek_eq, isClassEntry, pure_eq_ok, isString, counts]
  | _ => simp [Tree.staysIn, siteAt, held.peek_eq, isClassEntry, pure_eq_ok]

end Sites

def constantAt (t : Tree) (id : NodeId) : List Constant :=
  match t.peek id with
  | some ⟨_, .namedVar name init⟩ =>
    match t.peek init with
    | some ⟨_, .literal lit⟩ => if lit.isString then [⟨name, lit.value, id⟩] else []
    | _ => []
  | _ => []

def declaredBy (t : Tree) (member : NodeId) : List Constant :=
  match t.peek member with
  | some ⟨_, .varDecl d⟩ => if declaresConstants d then d.vars.flatMap (constantAt t) else []
  | _ => []

def firstOfEach (declared : List Constant) : List Constant :=
  declared.foldl (fun kept c => if kept.any (·.value == c.value) then kept else kept ++ [c]) []

theorem constantOf_eq {t : Tree} {id : NodeId} {pos : Position} {name : Text} {init : NodeId}
    (held : t.Holds id ⟨pos, .namedVar name init⟩) (present : init = 0 ∨ ∃ n, t.Holds init n) :
    constantOf t id = .ok (constantAt t id) := by
  rw [constantOf, held.form?_eq, ok_bind]
  rcases present with rfl | ⟨⟨pos', form⟩, here⟩
  · have nothing : t.form? 0 = .ok none := by
      rw [Tree.form?, Tree.node?_zero]
      rfl
    have absent : t.peek 0 = none := by simp [Tree.peek, Tree.node?_zero]
    simp [nothing, ok_bind, constantAt, held.peek_eq, absent, pure_eq_ok]
  · simp only [here.form?_eq, ok_bind]
    cases form <;> simp [constantAt, held.peek_eq, here.peek_eq, pure_eq_ok]

section Constants
variable {t : Tree} {f below : Forest} {c : NodeId} {pos : Position} {d : ClassDecl}

theorem memberConstants_eq (here : ClassIn t f c below pos d) {m : NodeId}
    (isMember : m ∈ d.members) : memberConstants t m = .ok (declaredBy t m) := by
  obtain ⟨⟨pos', form⟩, held, _⟩ := here.shaped.member_holds here.mem here.held isMember
  have inside : m ∈ f.ids := here.shaped.follows.child_mem here.mem
    (here.shaped.child_of_member here.mem here.held isMember)
  rw [memberConstants, held.form?_eq, ok_bind]
  cases form with
  | varDecl vd =>
      cases declares : declaresConstants vd with
      | false => simp [declaredBy, held.peek_eq, declares, pure_eq_ok]
      | true =>
          have each : ∀ v ∈ vd.vars, constantOf t v = .ok (constantAt t v) := by
            intro v isVar
            obtain ⟨_, name, init, var⟩ := here.shaped.var_holds inside held isVar
            have varInside := here.shaped.follows.child_mem inside
              (here.shaped.child_of_var inside held isVar)
            exact constantOf_eq var (here.shaped.init_holds varInside var)
          simp only [if_true, mapM_eq_ok _ _ _ each, ok_bind, declaredBy, held.peek_eq, declares]
          simp [pure_eq_ok, List.flatMap_def]
  | _ => simp [declaredBy, held.peek_eq, pure_eq_ok]

theorem constants_eq (here : ClassIn t f c below pos d) :
    constants t c = .ok (firstOfEach (d.members.flatMap (declaredBy t))) := by
  have each : ∀ m ∈ d.members, memberConstants t m = .ok (declaredBy t m) :=
    fun m isMember => memberConstants_eq here isMember
  rw [constants, classAt_eq here.held, ok_bind, mapM_eq_ok _ _ _ each, ok_bind, List.flatMap_def]
  rfl

end Constants

theorem find?_firstOfEach (declared : List Constant) (value : Text) :
    (firstOfEach declared).find? (·.value == value) = declared.find? (·.value == value) := by
  have general : ∀ (rest kept : List Constant),
      (rest.foldl (fun kept c => if kept.any (·.value == c.value) then kept else kept ++ [c])
        kept).find? (·.value == value) = (kept ++ rest).find? (·.value == value) := by
    intro rest
    induction rest with
    | nil => intro kept; simp
    | cons c rest ih =>
        intro kept
        simp only [List.foldl_cons]
        rw [ih]
        split
        · rename_i seen
          obtain ⟨k, member, same⟩ := List.any_eq_true.mp seen
          by_cases here : c.value = value
          · have found : (kept.find? (·.value == value)).isSome := by
              rw [List.find?_isSome]
              exact ⟨k, member, by simpa [here] using same⟩
            obtain ⟨k', first⟩ := Option.isSome_iff_exists.mp found
            simp [List.find?_append, first]
          · simp [List.find?_append, here]
        · simp
  exact general declared []

/-- A constant of a class: a variable of one of its private static final declarations of the
string type, with a string literal as initial value. -/
structure IsConstant (t : Tree) (d : ClassDecl) (k : Constant) (member init : NodeId)
    (vd : VarDecl) (lit : Literal) : Prop where
  isMember : member ∈ d.members
  declaration : ∃ pos, t.Holds member ⟨pos, .varDecl vd⟩
  declares : declaresConstants vd = true
  isVar : k.var ∈ vd.vars
  variable_ : ∃ pos, t.Holds k.var ⟨pos, .namedVar k.name init⟩
  initial : ∃ pos, t.Holds init ⟨pos, .literal lit⟩
  isString : lit.isString = true
  value_eq : lit.value = k.value

theorem isConstant_of_mem {t : Tree} {d : ClassDecl} {k : Constant}
    (declared : k ∈ d.members.flatMap (declaredBy t)) :
    ∃ member init vd lit, IsConstant t d k member init vd lit := by
  obtain ⟨m, isMember, byMember⟩ := List.mem_flatMap.mp declared
  unfold declaredBy at byMember
  split at byMember
  · rename_i pos vd declaration
    split at byMember
    · rename_i declares
      obtain ⟨v, isVar, constant⟩ := List.mem_flatMap.mp byMember
      unfold constantAt at constant
      split at constant
      · rename_i pos' name init var
        split at constant
        · rename_i pos'' lit initial
          split at constant
          · rename_i isString
            obtain rfl : k = ⟨name, lit.value, v⟩ := by simpa using constant
            exact ⟨m, init, vd, lit, isMember, ⟨pos, Tree.holds_of_peek declaration⟩, declares,
              isVar, ⟨pos', Tree.holds_of_peek var⟩, ⟨pos'', Tree.holds_of_peek initial⟩,
              isString, rfl⟩
          · simp at constant
        · simp at constant
      · simp at constant
    · simp at byMember
  · simp at byMember

end LiteralHoist.Consolidate
