import LiteralHoist.Proofs.Document.RoundTrip

/-!
# How deeply nodes nest

In JSON the object of a node holds that of a single child, or the list that holds that of another
child, or the object of the field that the node refers to.  So the nesting of what is written for a
number is bounded from below by the nesting of what is below the number, and from above by the
nesting of the children alone.
-/

set_option autoImplicit false

namespace LiteralHoist.Json

theorem depthItems_le {items : List Json} {k : Nat} (each : ∀ v ∈ items, v.depth ≤ k) :
    depthItems items ≤ k := by
  induction items with
  | nil => exact Nat.zero_le k
  | cons item rest ih =>
      rw [List.forall_mem_cons] at each
      exact Nat.max_le.mpr ⟨each.1, ih each.2⟩

theorem depthMembers_le {members : List (Text × Json)} {k : Nat}
    (each : ∀ m ∈ members, m.2.depth ≤ k) : depthMembers members ≤ k := by
  induction members with
  | nil => exact Nat.zero_le k
  | cons m rest ih =>
      rw [List.forall_mem_cons] at each
      exact Nat.max_le.mpr ⟨each.1, ih each.2⟩

end LiteralHoist.Json

namespace LiteralHoist.Document

open LiteralHoist.Source

theorem depth_jsonWords (ws : List Text) : (jsonWords ws).depth = 1 := by
  have flat : Json.depthItems (ws.map .str) = 0 :=
    Nat.le_zero.mp (Json.depthItems_le fun v member => by
      obtain ⟨s, _, rfl⟩ := List.mem_map.mp member
      exact Nat.le_refl 0)
  rw [jsonWords, Json.depth, flat]

section Wire
variable {w c : Wire}

/-- A node refers to no field, and what stands at its keys nests at most so deeply. -/
structure Shallow (w : Wire) (k : Nat) : Prop where
  field : w.attrs.field = none
  lists : ∀ slot c, some c ∈ w.many slot → c.toJson.depth + 1 ≤ k
  singles : ∀ slot c, w.one slot = some c → c.toJson.depth ≤ k

theorem Shallow.depth_le {k : Nat} (shallow : Shallow w k) (positive : 1 ≤ k) :
    w.toJson.depth ≤ k + 1 := by
  rw [toJson_eq, Json.depth]
  refine Nat.succ_le_succ (Json.depthMembers_le fun m member => ?_)
  obtain ⟨key, _, isMember⟩ := List.mem_flatMap.mp member
  rcases members_cases w key with ⟨omitted, _⟩ | ⟨v, single, written⟩
  · simp [omitted] at isMember
  · rw [single, List.mem_singleton] at isMember
    rw [isMember]
    cases written with
    | text => exact Nat.zero_le k
    | number => exact Nat.zero_le k
    | words k => exact (depth_jsonWords _).trans_le positive
    | field present => simp [shallow.field] at present
    | one present => exact shallow.singles _ _ present
    | many slot =>
        have items : Json.depthItems (Wire.listJson (w.many slot)) ≤ k - 1 := by
          refine Json.depthItems_le fun v listed => ?_
          rw [listJson_eq] at listed
          obtain ⟨entry, inside, rfl⟩ := List.mem_map.mp listed
          cases entry with
          | none => exact Nat.zero_le _
          | some c => exact Nat.le_sub_one_of_lt (shallow.lists slot c inside)
        rw [Json.depth]
        omega

theorem Shallow.setMany {k : Nat} (shallow : Shallow w k) (slot : ListSlot)
    {ws : List (Option Wire)} (each : ∀ c, some c ∈ ws → c.toJson.depth + 1 ≤ k) :
    Shallow (w.setMany slot ws) k := by
  refine ⟨shallow.field, fun s c member => ?_, shallow.singles⟩
  by_cases same : s = slot
  · exact each c (by simpa [Wire.setMany, Wire.many, same] using member)
  · exact shallow.lists s c (by simpa [Wire.setMany, Wire.many, same] using member)

theorem Shallow.setOne {k : Nat} (shallow : Shallow w k) (slot : Slot) {child : Option Wire}
    (each : ∀ c, child = some c → c.toJson.depth ≤ k) : Shallow (w.setOne slot child) k := by
  refine ⟨shallow.field, shallow.lists, fun s c present => ?_⟩
  by_cases same : s = slot
  · exact each c (by simpa [Wire.setOne, Wire.one, same] using present)
  · exact shallow.singles s c (by simpa [Wire.setOne, Wire.one, same] using present)

end Wire

section Filled
variable {child : NodeId → Option Wire} {pos : Position} {form : Form} {c : Wire}

theorem depth_filledWire_le {n : Node} {k : Nat} (positive : 1 ≤ k)
    (field : (nodeAttributes n).field = none)
    (lists : ∀ p ∈ listChildren n.form, ∀ x ∈ p.2, ∀ c, child x = some c → c.toJson.depth + 1 ≤ k)
    (singles : ∀ p ∈ singleChildren n.form, ∀ c, child p.2 = some c → c.toJson.depth ≤ k) :
    (filledWire child n).toJson.depth ≤ k + 1 := by
  have start : Shallow (Wire.empty.setAttrs (nodeAttributes n)) k :=
    ⟨field, by simp [Wire.empty, Wire.setAttrs, Wire.many],
      by simp [Wire.empty, Wire.setAttrs, Wire.one]⟩
  refine Shallow.depth_le (List.foldlRecOn _ _ (motive := fun w => Shallow w k)
    (List.foldlRecOn _ _ (motive := fun w => Shallow w k) start ?_) ?_) positive
  · intro w shallow p listed
    refine shallow.setMany p.1 fun c member => ?_
    obtain ⟨x, inside, made⟩ := List.mem_map.mp member
    exact lists p listed x inside c made
  · intro w shallow p single
    exact shallow.setOne p.1 (singles p single)

end Filled

/-- What is written for a number stands in what is written for another, below so many containers
of which the other's is the first. -/
inductive Encloses (t : Tree) (x : NodeId) : NodeId → Nat → Prop where
  | self {n : Node} (held : t.Holds x n) : Encloses t x x 0
  | one {id y : NodeId} {pos : Position} {form : Form} {slot : Slot} {kinds : List Kind}
      {needed : Bool} {k : Nat} (held : t.Holds id ⟨pos, form⟩)
      (filled : .one slot kinds needed y ∈ fillings form) (lower : Encloses t x y k) :
      Encloses t x id (k + 1)
  | list {id y : NodeId} {pos : Position} {form : Form} {slot : ListSlot} {kinds : List Kind}
      {ids : List NodeId} {k : Nat} (held : t.Holds id ⟨pos, form⟩)
      (filled : .list slot kinds ids ∈ fillings form) (listed : y ∈ ids)
      (lower : Encloses t x y k) : Encloses t x id (k + 2)

section Tree
variable {t : Tree} {id x : NodeId} {pos : Position} {k m : Nat}

theorem Encloses.holds (encloses : Encloses t x id k) : ∃ n, t.Holds id n := by
  cases encloses with
  | self held | one held _ _ | list held _ _ _ => exact ⟨_, held⟩

theorem Encloses.exists_child {y : NodeId} {n : Node} (lower : Encloses t x y k)
    (held : t.Holds id n) (place : y ∈ n.form.places) {depth : Nat} {w : Wire}
    (run : wireNode t depth id = .ok (some w)) : ∃ child less c, w = filledWire child n ∧
      child y = some c ∧ wireNode t less y = .ok (some c) := by
  obtain ⟨less, _, rfl, _⟩ := holds_of_wireNode run
  obtain ⟨child, each, made⟩ := wireNode_inv held run
  obtain ⟨m, here⟩ := lower.holds
  obtain ⟨c, present⟩ := present_of_wireNode here (each y place)
  exact ⟨child, less, c, Option.some.inj made, present, present ▸ each y place⟩

theorem Encloses.kept (encloses : Encloses t x id k) {t' : Tree}
    (keeps : ∀ id n, t.Holds id n → t'.Holds id n) : Encloses t' x id k := by
  induction encloses with
  | self held => exact .self (keeps _ _ held)
  | one held filled _ ih => exact .one (keeps _ _ held) filled ih
  | list held filled listed _ ih => exact .list (keeps _ _ held) filled listed ih

end Tree

end LiteralHoist.Document
