import LiteralHoist.Document.Codec
import LiteralHoist.Proofs.Document.Adding
import LiteralHoist.Proofs.Source.Shape

/-!
# Trees of documents

Adding a node of the wire form appends the nodes of one tree after the nodes that are there, in
which every place gets what it asks for.  So the tree of every unit of a document that could be
read conforms to the grammar.
-/

set_option autoImplicit false

namespace LiteralHoist.Document

open LiteralHoist.Source

/-- One tree continues another by the nodes of a forest. -/
structure Grows (t t' : Tree) (f : Forest) : Prop where
  size_eq : t'.size = t.size + f.ids.length
  keeps : ∀ id n, t.Holds id n → t'.Holds id n
  follows : f.Follows t'
  fresh : ∀ id ∈ f.ids, t.size < id
  nodup : f.ids.Nodup
  admits : ∀ id ∈ f.ids, ∀ n, t'.Holds id n → n.form.Admits t'

theorem Grows.size_le {t t' : Tree} {f : Forest} (grown : Grows t t' f) : t.size ≤ t'.size := by
  rw [grown.size_eq]
  exact Nat.le_add_right _ _

/-- One tree continues another by the nodes that some places ask for. -/
def Supplies (t t' : Tree) (ds : List Demand) : Prop :=
  ∃ f, Grows t t' f ∧ f.roots = (ds.map Demand.id).filter (· ≠ 0) ∧ ∀ d ∈ ds, d.Met t'

theorem Grows.refl (t : Tree) : Grows t t .nil where
  size_eq := rfl
  keeps _ _ held := held
  follows := trivial
  fresh := by simp [Forest.ids]
  nodup := by simp [Forest.ids]
  admits := by simp [Forest.ids]

theorem Grows.trans {t u v : Tree} {f g : Forest} (first : Grows t u f) (second : Grows u v g) :
    Grows t v (f.append g) where
  size_eq := by
    rw [second.size_eq, first.size_eq, Forest.ids_append, List.length_append, Nat.add_assoc]
  keeps id n held := second.keeps id n (first.keeps id n held)
  follows := (first.follows.keeps second.keeps).append second.follows
  fresh id member := by
    rw [Forest.ids_append, List.mem_append] at member
    rcases member with left | right
    · exact first.fresh id left
    · exact Nat.lt_of_le_of_lt first.size_le (second.fresh id right)
  nodup := by
    rw [Forest.ids_append, List.nodup_append]
    refine ⟨first.nodup, second.nodup, fun a left b right same => ?_⟩
    obtain ⟨n, held⟩ := first.follows.holds left
    have old := held.le_size
    have new := second.fresh b right
    rw [← same] at new
    exact absurd old (Nat.not_le_of_gt new)
  admits id member n held := by
    rw [Forest.ids_append, List.mem_append] at member
    rcases member with left | right
    · obtain ⟨m, here⟩ := first.follows.holds left
      rw [held.unique (second.keeps id m here)]
      intro d demanded
      exact (first.admits id left m here d demanded).keeps second.keeps
    · exact second.admits id right n held

theorem Supplies.refl (t : Tree) : Supplies t t [] :=
  ⟨.nil, Grows.refl t, rfl, by simp⟩

theorem Supplies.trans {t u v : Tree} {ds es : List Demand} (first : Supplies t u ds)
    (second : Supplies u v es) : Supplies t v (ds ++ es) := by
  obtain ⟨f, grown, roots, met⟩ := first
  obtain ⟨g, grown', roots', met'⟩ := second
  refine ⟨f.append g, grown.trans grown', ?_, fun d member => ?_⟩
  · rw [Forest.roots_append, roots, roots', List.map_append, List.filter_append]
  · rcases List.mem_append.mp member with left | right
    · exact (met d left).keeps grown'.keeps
    · exact met' d right

theorem Supplies.may {t t' : Tree} {allowed : List Kind} {id : NodeId} {required : Bool}
    (supplied : Supplies t t' [⟨id, allowed, required⟩]) : Supplies t t' [.may allowed id] := by
  obtain ⟨f, grown, roots, met⟩ := supplied
  refine ⟨f, grown, roots, fun d member => ?_⟩
  obtain rfl : d = .may allowed id := by simpa using member
  rcases met ⟨id, allowed, required⟩ (by simp) with ⟨empty, _⟩ | found
  · exact .inl ⟨empty, rfl⟩
  · exact .inr found

/-- A node whose places are supplied supplies the place it stands in. -/
theorem Supplies.push {t u : Tree} {n : Node} {allowed : List Kind}
    (supplied : Supplies t u n.form.demands) (kind : n.kind ∈ allowed) :
    Supplies t (u.push n).1 [.must allowed (u.size + 1)] := by
  obtain ⟨f, grown, roots, met⟩ := supplied
  have keeps : ∀ id m, u.Holds id m → (u.push n).1.Holds id m := fun id m held => held.push n
  have new := Tree.holds_push_new u n
  have fresh : u.size + 1 ∉ f.ids := by
    intro member
    obtain ⟨m, held⟩ := grown.follows.holds member
    exact absurd held.le_size (Nat.not_succ_le_self _)
  have children : n.form.children = f.roots := by
    rw [Form.children, roots, Form.map_id_demands]
  refine ⟨.cons (u.size + 1) f .nil, ⟨?_, ?_, ?_, ?_, ?_, ?_⟩, ?_, ?_⟩
  · rw [Tree.size_push, grown.size_eq, Forest.ids_single, List.length_cons, Nat.add_assoc]
  · exact fun id m held => keeps id m (grown.keeps id m held)
  · exact ⟨⟨n, new, children⟩, grown.follows.keeps keeps, trivial⟩
  · intro id member
    rw [Forest.ids_single, List.mem_cons] at member
    rcases member with rfl | below
    · exact Nat.lt_succ_of_le grown.size_le
    · exact grown.fresh id below
  · rw [Forest.ids_single]
    exact List.nodup_cons.mpr ⟨fresh, grown.nodup⟩
  · intro id member m held d demanded
    rw [Forest.ids_single, List.mem_cons] at member
    rcases member with rfl | below
    · rw [held.unique new] at demanded
      exact (met d demanded).keeps keeps
    · obtain ⟨m', held'⟩ := grown.follows.holds below
      rw [held.unique (keeps id m' held')] at demanded
      exact (grown.admits id below m' held' d demanded).keeps keeps
  · simp [Forest.roots, Demand.must]
  · intro d member
    obtain rfl : d = .must allowed (u.size + 1) := by simpa using member
    exact .inr ⟨n, new, kind⟩

theorem checkedKind_mem {attrs : Attributes} {allowed : List Kind} {kind : Kind}
    (checked : attrs.checkedKind allowed = .ok kind) : kind ∈ allowed := by
  unfold Attributes.checkedKind at checked
  split at checked
  · simp [Attributes.refuse] at checked
  · split at checked
    · rename_i found member
      rw [← Except.ok.inj checked]
      exact member
    · simp [Attributes.refuse] at checked

def Filling.demands : Filling → List Demand
  | .list _ allowed ids => ids.map (.must allowed)
  | .one _ allowed required id => [⟨id, allowed, required⟩]

theorem demands_fillings (form : Form) :
    (fillings form).flatMap Filling.demands = form.demands := by
  cases form <;> simp [fillings, Filling.demands, Form.demands, Demand.must, Demand.may]

theorem Supplies.absent (t : Tree) (allowed : List Kind) : Supplies t t [⟨0, allowed, false⟩] :=
  ⟨.nil, Grows.refl t, rfl, by simp [Demand.Met]⟩

section Below
variable {w : Wire}
  (lists : ∀ slot kinds v ids v', addList (w.many slot) kinds v = .ok (ids, v') →
    Supplies v v' (ids.map (.must kinds)))
  (singles : ∀ slot c kinds v x v', w.one slot = some c → addNode c kinds v = .ok (x, v') →
    Supplies v v' [.must kinds x])
include lists singles

theorem Filling.Adds.supplies {f : Filling} {t u : Tree} (adds : f.Adds w t u) :
    Supplies t u f.demands := by
  cases f with
  | list slot allowed ids => exact lists slot allowed t ids u adds
  | one slot allowed required id =>
      obtain ⟨run, needed⟩ := adds
      rcases addOption_cases run with ⟨absent, rfl, rfl⟩ | ⟨c, present, run⟩
      · have optional : required = false := by
          cases required with
          | false => rfl
          | true => simp [absent] at needed
        rw [Filling.demands, optional]
        exact Supplies.absent u allowed
      · have supplied := singles slot c allowed t id u present run
        cases required with
        | false => exact supplied.may
        | true => exact supplied

theorem AddsAll.supplies {fs : List Filling} {t u : Tree} (all : AddsAll w t fs u) :
    Supplies t u (fs.flatMap Filling.demands) := by
  induction all with
  | nil => exact Supplies.refl _
  | cons first _ ih =>
      rw [List.flatMap_cons]
      exact (first.supplies lists singles).trans ih

end Below

theorem hereditary_supplies :
    Hereditary (fun _ allowed t id t' => Supplies t t' [.must allowed id])
      (fun _ allowed t ids t' => Supplies t t' (ids.map (.must allowed))) where
  nil _ t := Supplies.refl t
  skip supplied := supplied
  cons _ first _ later := first.trans later
  node added lists singles := by
    have supplied := added.places.supplies lists singles
    rw [demands_fillings] at supplied
    exact supplied.push (checkedKind_mem added.kind)

theorem supplies_of_addNode {w : Wire} {allowed : List Kind} {t t' : Tree} {id : NodeId}
    (run : addNode w allowed t = .ok (id, t')) : Supplies t t' [.must allowed id] :=
  hereditary_supplies.addNode w allowed t id t' run

theorem supplies_of_addList {ws : List (Option Wire)} {allowed : List Kind} {t t' : Tree}
    {ids : List NodeId} (run : addList ws allowed t = .ok (ids, t')) :
    Supplies t t' (ids.map (.must allowed)) :=
  hereditary_supplies.addList ws allowed t ids t' run

theorem supplies_of_addOption {w : Option Wire} {allowed : List Kind} {t t' : Tree} {id : NodeId}
    (run : addOption w allowed t = .ok (id, t')) : Supplies t t' [.may allowed id] := by
  rcases addOption_cases run with ⟨_, rfl, rfl⟩ | ⟨c, _, run⟩
  · exact Supplies.absent t' allowed
  · exact (supplies_of_addNode run).may

theorem treeOfUnit_eq {u : Option Wire} {t : Tree} (success : treeOfUnit u = .ok t) :
    ∃ built root, addOption u [.unit] {} = .ok (root, built) ∧ t = { built with root } := by
  obtain ⟨⟨root, built⟩, added, made⟩ := bind_eq_ok success
  exact ⟨built, root, added, (Except.ok.inj made).symm⟩

/-- The tree of a unit that is present conforms to the grammar and has no other nodes. -/
theorem compact_of_treeOfUnit {u : Option Wire} {t : Tree} (success : treeOfUnit u = .ok t)
    (present : t.root ≠ 0) : t.Compact := by
  obtain ⟨built, root, added, rfl⟩ := treeOfUnit_eq success
  obtain ⟨f, grown, roots, _⟩ := supplies_of_addOption added
  refine ⟨f, ⟨?_, ?_, grown.nodup, ?_⟩, by simpa [Tree.size] using grown.size_eq.symm⟩
  · simpa [Demand.may, present] using roots
  · exact grown.follows.keeps fun id n held => held
  · intro id member n held d demanded
    exact (grown.admits id member n held d demanded).keeps fun id n held => held

theorem conforms_of_treeOfUnit {u : Option Wire} {t : Tree} (success : treeOfUnit u = .ok t)
    (present : t.root ≠ 0) : t.Conforms :=
  (compact_of_treeOfUnit success present).conforms

/-- The tree of a unit that is missing is empty. -/
theorem eq_empty_of_treeOfUnit {u : Option Wire} {t : Tree} (success : treeOfUnit u = .ok t)
    (absent : t.root = 0) : t = {} := by
  obtain ⟨built, root, added, rfl⟩ := treeOfUnit_eq success
  obtain rfl : root = 0 := absent
  rcases addOption_cases added with ⟨_, _, rfl⟩ | ⟨w, _, run⟩
  · rfl
  · obtain ⟨_, _, _, number, _⟩ := addNode_inv run
    exact absurd number (Nat.succ_ne_zero _).symm

theorem unit_of_treeOfUnit {u : Option Wire} {t : Tree} (success : treeOfUnit u = .ok t)
    (present : t.root ≠ 0) : ∃ pos d, t.Holds t.root ⟨pos, .unit d⟩ := by
  obtain ⟨built, root, added, rfl⟩ := treeOfUnit_eq success
  obtain ⟨_, _, _, met⟩ := supplies_of_addOption added
  rcases met (.may [.unit] root) (by simp) with ⟨absent, _⟩ | ⟨⟨pos, form⟩, held, kind⟩
  · exact absurd absent present
  · cases form with
    | unit d => exact ⟨pos, d, held⟩
    | _ => simp [Demand.may, Node.kind, Form.kind] at kind

theorem treesOfUnits_iff {units : List (Option Wire)} : ∀ {index : Nat} {trees : List Tree},
    Document.treesOfUnits index units = .ok trees ↔
      List.Forall₂ (fun u t => treeOfUnit u = .ok t) units trees := by
  induction units with
  | nil =>
      intro index trees
      simp [Document.treesOfUnits, eq_comm]
  | cons u rest ih =>
      intro index trees
      rw [Document.treesOfUnits, List.forall₂_cons_left_iff]
      constructor
      · intro success
        cases first : treeOfUnit u with
        | error e => simp [first] at success
        | ok t =>
            simp only [first] at success
            cases later : Document.treesOfUnits (index + 1) rest with
            | error e =>
                rw [later] at success
                contradiction
            | ok more =>
                rw [later, ok_bind] at success
                exact ⟨t, more, rfl, ih.mp later, (Except.ok.inj success).symm⟩
      · rintro ⟨t, more, first, later, rfl⟩
        rw [first]
        simp only [ih.mpr later, ok_bind]
        rfl

/-- A wire form is a document if its version is supported and its units are trees. -/
theorem ofWire_iff {d : WireDocument} {doc : Document} :
    Document.ofWire d = .ok doc ↔ Version.major? d.version = some "1" ∧
      doc.version = d.version ∧
        List.Forall₂ (fun u t => treeOfUnit u = .ok t) d.units doc.trees := by
  rw [Document.ofWire, ← @treesOfUnits_iff d.units 0 doc.trees]
  cases Version.major? d.version with
  | none => simp
  | some major =>
      by_cases supported : major = "1"
      · cases Document.treesOfUnits 0 d.units with
        | error e => simp [supported, Bind.bind, Except.bind]
        | ok built =>
            obtain ⟨version, trees⟩ := doc
            simp [supported, ok_bind, pure_eq_ok, eq_comm]
      · simp [supported]

/-- Every tree of a document that could be read is that of a unit of its wire form. -/
theorem treeOfUnit_of_read {codec : Codec} {bytes : List UInt8} {doc : Document}
    (success : Document.read codec bytes = .ok doc) {t : Tree} (member : t ∈ doc.trees) :
    ∃ d u, Document.readWire codec bytes = .ok d ∧ u ∈ d.units ∧ treeOfUnit u = .ok t := by
  obtain ⟨d, wire, made⟩ := bind_eq_ok success
  obtain ⟨_, _, trees⟩ := ofWire_iff.mp made
  obtain ⟨u, listed, ofUnit⟩ := exists_of_forall₂ trees.flip member
  exact ⟨d, u, wire, listed, ofUnit⟩

theorem compact_of_read {codec : Codec} {bytes : List UInt8} {doc : Document}
    (success : Document.read codec bytes = .ok doc) {t : Tree} (unit : t ∈ doc.trees)
    (present : t.root ≠ 0) : t.Compact := by
  obtain ⟨_, u, _, _, ofUnit⟩ := treeOfUnit_of_read success unit
  exact compact_of_treeOfUnit ofUnit present

/-- A unit that is absent is read as the tree without nodes. -/
theorem empty_or_compact_of_read {codec : Codec} {bytes : List UInt8} {doc : Document}
    (success : Document.read codec bytes = .ok doc) {t : Tree} (unit : t ∈ doc.trees) :
    t = {} ∨ t.Compact := by
  by_cases absent : t.root = 0
  · obtain ⟨_, _, _, _, ofUnit⟩ := treeOfUnit_of_read success unit
    exact .inl (eq_empty_of_treeOfUnit ofUnit absent)
  · exact .inr (compact_of_read success unit absent)

theorem compact_of_held {codec : Codec} {bytes : List UInt8} {doc : Document}
    (success : Document.read codec bytes = .ok doc) {t : Tree} (unit : t ∈ doc.trees)
    {id : NodeId} {n : Node} (held : t.Holds id n) : t.Compact := by
  rcases empty_or_compact_of_read success unit with rfl | compact
  · exact absurd (Nat.le_zero.mp held.le_size) held.ne_zero
  · exact compact

theorem exists_shaped_of_held {codec : Codec} {bytes : List UInt8} {doc : Document}
    (success : Document.read codec bytes = .ok doc) {t : Tree} (unit : t ∈ doc.trees)
    {id : NodeId} {n : Node} (held : t.Holds id n) :
    ∃ f, Shaped t f ∧ ∀ {id : NodeId} {n : Node}, t.Holds id n → id ∈ f.ids := by
  have compact := compact_of_held success unit held
  obtain ⟨f, shaped⟩ := compact.conforms
  exact ⟨f, shaped, fun there => shaped.below_root.mp (compact.below_root there)⟩

/-- Every unit that is present in a document that could be read conforms to the grammar. -/
theorem conforms_of_read {codec : Codec} {bytes : List UInt8} {doc : Document}
    (success : Document.read codec bytes = .ok doc) {t : Tree} (unit : t ∈ doc.trees)
    (present : t.root ≠ 0) : t.Conforms :=
  (compact_of_read success unit present).conforms

theorem unit_of_read {codec : Codec} {bytes : List UInt8} {doc : Document}
    (success : Document.read codec bytes = .ok doc) {t : Tree} (member : t ∈ doc.trees)
    (present : t.root ≠ 0) : ∃ pos d, t.Holds t.root ⟨pos, .unit d⟩ := by
  obtain ⟨_, u, _, _, ofUnit⟩ := treeOfUnit_of_read success member
  exact unit_of_treeOfUnit ofUnit present

def writtenUnit (t : Tree) : List UInt8 :=
  match Document.write .messagePack ⟨Version.current, [t]⟩ with
  | .ok (.ok bytes) => bytes
  | _ => []

theorem read_writtenUnit {t : Tree}
    (check : (Document.read .messagePack (writtenUnit t)).toOption =
      some ⟨Version.current, [t]⟩) :
    Document.read .messagePack (writtenUnit t) = .ok ⟨Version.current, [t]⟩ :=
  eq_ok_of_toOption check

end LiteralHoist.Document
