import LiteralHoist.Proofs.Document.Rewritten
import LiteralHoist.Proofs.Source.Order

/-!
# The numbers of a tree that was read

A reader appends a node after it has appended what is below it, in the order of the keys, and the
order of the keys is that of the children.  So what is added under a key gets the next numbers in
postorder, and the numbers of a tree that was read are the places of its nodes in postorder.
-/

set_option autoImplicit false

namespace LiteralHoist.Document

open LiteralHoist.Source

/-- The nodes that continue one tree to another are those below some numbers of the whole, and they
are numbered on in postorder. -/
def Counts (whole t t' : Tree) (ids : List NodeId) : Prop :=
  ∃ count, t'.size = t.size + count ∧ whole.Postorder ids (List.range' (t.size + 1) count)

section Counts
variable {whole t u v : Tree} {ids more : List NodeId}

theorem Counts.nil (whole t : Tree) : Counts whole t t [] :=
  ⟨0, rfl, .nil⟩

theorem Counts.append (first : Counts whole t u ids) (second : Counts whole u v more) :
    Counts whole t v (ids ++ more) := by
  obtain ⟨count, grown, order⟩ := first
  obtain ⟨count', grown', order'⟩ := second
  refine ⟨count + count', by omega, ?_⟩
  have next : u.size + 1 = t.size + 1 + count := by omega
  rw [← List.range'_append_1, ← next]
  exact order.append order'

/-- A node that is appended after what is below it has the next number. -/
theorem Counts.push {n : Node} (below : Counts whole t u n.form.children)
    (held : whole.Holds (u.size + 1) n) : Counts whole t (u.push n).1 [u.size + 1] := by
  obtain ⟨count, grown, order⟩ := below
  refine ⟨count + 1, by rw [Tree.size_push, grown]; rfl, ?_⟩
  have last : u.size + 1 = t.size + 1 + count := by omega
  rw [List.range'_1_concat, ← last]
  exact .cons held.children_eq order .nil

end Counts

def Filling.children (f : Filling) : List NodeId :=
  (f.demands.map Demand.id).filter (· ≠ 0)

theorem flatMap_children_fillings (form : Form) :
    (fillings form).flatMap Filling.children = form.children := by
  rw [Form.children, ← Form.map_id_demands, ← demands_fillings, List.map_flatMap,
    List.filter_flatMap]
  rfl

section Below
variable {whole : Tree} {w : Wire}
  (lists : ∀ slot kinds v ids v', addList (w.many slot) kinds v = .ok (ids, v') →
    Within v' whole → Counts whole v v' (ids.filter (· ≠ 0)))
  (singles : ∀ slot c kinds v x v', w.one slot = some c → addNode c kinds v = .ok (x, v') →
    Within v' whole → Counts whole v v' [x])
include lists singles

theorem Filling.Adds.counts {f : Filling} {t u : Tree} (adds : f.Adds w t u)
    (within : Within u whole) : Counts whole t u f.children := by
  cases f with
  | list slot kinds ids =>
      have listed := lists slot kinds t ids u adds within
      simpa [Filling.children, Filling.demands, Function.comp_def, Demand.must] using listed
  | one slot kinds required id =>
      rcases addOption_cases adds.1 with ⟨_, rfl, rfl⟩ | ⟨c, present, run⟩
      · exact Counts.nil whole u
      · obtain ⟨n, held⟩ := holds_of_addNode run
        have single := singles slot c kinds t id u present run within
        simpa [Filling.children, Filling.demands, held.ne_zero] using single

theorem AddsAll.counts {fs : List Filling} {t u : Tree} (all : AddsAll w t fs u)
    (within : Within u whole) : Counts whole t u (fs.flatMap Filling.children) := by
  induction all with
  | nil => exact Counts.nil whole _
  | cons first later ih =>
      exact (first.counts lists singles (later.within within)).append (ih within)

end Below

theorem hereditary_counts (whole : Tree) :
    Hereditary (fun _ _ t id t' => Within t' whole → Counts whole t t' [id])
      (fun _ _ t ids t' => Within t' whole → Counts whole t t' (ids.filter (· ≠ 0))) where
  nil _ t _ := Counts.nil whole t
  skip counted := counted
  cons {w rest allowed t id u ids t'} added first more later := by
    intro within
    obtain ⟨n, held⟩ := holds_of_addNode added
    rw [List.filter_cons_of_pos (by simpa using held.ne_zero)]
    exact (first ((supplies_of_addList more).within within)).append (later within)
  node {w allowed t form u} added lists singles := by
    intro within
    have below := added.places.counts lists singles within.of_push
    rw [flatMap_children_fillings] at below
    exact Counts.push (n := ⟨w.attrs.pos, form⟩) below (within _ _ (u.holds_push_new _))

/-- The numbers of a tree that was read count its nodes in postorder, up to the root. -/
theorem postorder_of_treeOfUnit {u : Option Wire} {t : Tree} (success : treeOfUnit u = .ok t)
    (present : t.root ≠ 0) :
    t.root = t.size ∧ t.Postorder [t.root] (List.range' 1 t.size) := by
  obtain ⟨built, root, added, rfl⟩ := treeOfUnit_eq success
  rcases addOption_cases added with ⟨_, absent, _⟩ | ⟨w, _, run⟩
  · exact absurd absent present
  · have within : Within built { built with root } := fun _ _ held => held
    obtain ⟨count, grown, order⟩ := (hereditary_counts { built with root }).addNode w [.unit] {}
      root built run within
    obtain ⟨form, u, _, last, made⟩ := addNode_inv run
    have whole : count = built.size := by simpa [Tree.size] using grown.symm
    refine ⟨?_, whole ▸ order⟩
    change root = built.size
    rw [last, made, Tree.size_push]

/-- A tree that was read holds the nodes below its root and no others, and a node's number is its
place in postorder: the root is last, a child comes before its parent and is the child of no other
node, and a walk visits every number once. -/
theorem numbered_in_postorder {codec : Codec} {bytes : List UInt8} {doc : Document}
    (accepted : Document.read codec bytes = .ok doc) {t : Tree} (member : t ∈ doc.trees)
    (present : t.root ≠ 0) :
    t.root = t.size ∧
      (∀ p children, t.children p = .ok children → ∀ id ∈ children,
        id < p ∧ ∃ n, t.Holds id n) ∧
      (∀ id, 0 < id → id < t.size → (∃ n, t.Holds id n) ∧ ∃! place : NodeId × Nat,
        ∃ children, t.children place.1 = .ok children ∧ children[place.2]? = some id) ∧
      (∃ order, t.walkOrder = .ok order ∧ order.Perm (List.range' 1 t.size)) ∧
      ∀ order, t.Postorder [t.root] order ↔ order = List.range' 1 t.size := by
  obtain ⟨_, u, _, _, ofUnit⟩ := treeOfUnit_of_read accepted member
  obtain ⟨last, counted⟩ := postorder_of_treeOfUnit ofUnit present
  obtain ⟨f, shaped, full⟩ := compact_of_treeOfUnit ofUnit present
  have perm := shaped.perm_range full
  have whole : ∀ id n, t.Holds id n → id ∈ f.ids := fun id n held =>
    shaped.below_root.mp ((compact_of_treeOfUnit ofUnit present).below_root held)
  refine ⟨last, fun p children given id isChild => ?_, fun id positive bound => ?_,
    ⟨f.ids, shaped.walkOrder_eq, perm⟩, fun order => ⟨fun other => other.unique counted, ?_⟩⟩
  · have child : t.Child p id := Tree.child_iff.mpr ⟨children, given, isChild⟩
    have inside : p ∈ f.ids := by
      obtain ⟨n, held, _⟩ := child
      exact whole p n held
    refine ⟨counted.child_lt List.pairwise_lt_range' (perm.subset inside) child, ?_⟩
    exact shaped.follows.holds (shaped.follows.child_mem inside child)
  · have inside : id ∈ f.ids := perm.symm.subset (List.mem_range'_1.mpr (by omega))
    exact ⟨shaped.follows.holds inside,
      shaped.exists_unique_place whole inside (by rw [last]; exact Nat.ne_of_lt bound)⟩
  · rintro rfl
    exact counted

/-- A class whose method has a parameter, and a condition with a branch for each case. -/
def branchingUnit : Tree where
  root := 15
  nodes := #[
    some { form := .namedVar "s" 0 },
    some { form := .varDecl { type := "String", vars := [1] } },
    some { form := .ident "s" "String" none },
    some { form := .literal { value := "a", source := "\"a\"", type := "String" } },
    some { form := .call 3 "equals" [4] "boolean" },
    some { form := .literal { value := "b", source := "\"b\"", type := "String" } },
    some { form := .return 6 },
    some { form := .block [7] },
    some { form := .ident "s" "String" none },
    some { form := .return 9 },
    some { form := .ifStmt 5 8 10 },
    some { form := .block [11] },
    some { form := .method { result := "String", name := "f", params := [2], body := 12 } },
    some { form := .classDecl { name := "A", fqn := "A", members := [13] } },
    some { form := .unit { name := "A.java", classes := [14] } }]

theorem branchingUnit_numbered :
    Document.read .messagePack (writtenUnit branchingUnit) =
        .ok ⟨Version.current, [branchingUnit]⟩ ∧
      branchingUnit.root = branchingUnit.size ∧
      branchingUnit.walkOrder = .ok [15, 14, 13, 2, 1, 12, 11, 5, 3, 4, 8, 7, 6, 10, 9] ∧
      branchingUnit.Postorder [15] (List.range' 1 15) := by
  have accepted := read_writtenUnit (t := branchingUnit) (by decide +kernel)
  obtain ⟨last, _, _, _, counted⟩ :=
    numbered_in_postorder accepted (List.mem_singleton.mpr rfl) (by decide)
  exact ⟨accepted, last, eq_ok_of_toOption (by decide +kernel), (counted _).mpr rfl⟩

end LiteralHoist.Document
