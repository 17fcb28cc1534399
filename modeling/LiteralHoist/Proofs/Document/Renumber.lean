import LiteralHoist.Proofs.Document.Described
import LiteralHoist.Proofs.Source.Postorder

/-!
# Trees that are written and read under other numbers

The wire form of a tree does not show numbers, and what is written for a tree is read under numbers
of its own: nodes are counted in the order in which they are complete.  So a compact tree and what
is read from its wire form are the same tree under other numbers.
-/

set_option autoImplicit false

namespace LiteralHoist.Document

open LiteralHoist.Source

section Wire
variable (ρ : NodeId → NodeId)

theorem nodeAttributes_renumber (n : Node) : nodeAttributes (n.renumber ρ) = nodeAttributes n := by
  obtain ⟨pos, form⟩ := n
  cases form <;> rfl

theorem listChildren_renumber (form : Form) :
    listChildren (form.renumber ρ) = (listChildren form).map (Prod.map id (List.map ρ)) := by
  cases form <;> rfl

theorem singleChildren_renumber (form : Form) :
    singleChildren (form.renumber ρ) = (singleChildren form).map (Prod.map id ρ) := by
  cases form <;> rfl

end Wire

section Bound
variable {t : Tree} {depth : Nat} {id : NodeId} (present : id ≠ 0)
include present

theorem wireNode_at_bound : wireNode t 0 id = .error .endless := by
  cases id with
  | zero => exact absurd rfl present
  | succ id => rfl

theorem wireNode_succ : wireNode t (depth + 1) id = (do
    match ← t.node? id with
    | none => .error .emptyPlace
    | some n =>
      let w := Wire.empty.setAttrs (nodeAttributes n)
      let w ← (listChildren n.form).foldlM (fun w (slot, ids) => do
        return w.setMany slot (← ids.mapM (wireNode t depth))) w
      let w ← (singleChildren n.form).foldlM (fun w (slot, child) => do
        return w.setOne slot (← wireNode t depth child)) w
      return some w) := by
  cases id with
  | zero => exact absurd rfl present
  | succ id => rfl

end Bound

section Renumbers
variable {t t' : Tree} {ρ : NodeId → NodeId} (same : t.Renumbers ρ t')
include same

theorem wireNode_renumber (depth : Nat) : ∀ id, wireNode t' depth (ρ id) = wireNode t depth id := by
  induction depth with
  | zero =>
      intro id
      by_cases absent : id = 0
      · rw [absent, same.zero, wireNode_zero, wireNode_zero]
      · rw [wireNode_at_bound absent, wireNode_at_bound (same.eq_zero_iff.not.mpr absent)]
  | succ depth ih =>
      intro id
      by_cases absent : id = 0
      · rw [absent, same.zero, wireNode_zero, wireNode_zero]
      · rw [wireNode_succ absent, wireNode_succ (same.eq_zero_iff.not.mpr absent)]
        refine same.bind_node?_eq (fun entry => ?_) id
        cases entry with
        | none => rfl
        | some n =>
            simp only [Option.map_some, nodeAttributes_renumber]
            rw [show (n.renumber ρ).form = n.form.renumber ρ from rfl, listChildren_renumber,
              singleChildren_renumber]
            simp only [List.foldlM_map, Prod.map_fst, Prod.map_snd, id_eq, mapM_map_eq ih, ih]

/-- The wire form of a tree does not depend on the numbers. -/
theorem unitOfTree_renumber : unitOfTree t' = unitOfTree t := by
  rw [unitOfTree, unitOfTree, same.root_eq, same.size_eq, wireNode_renumber same]

end Renumbers

def Numbered (ρ : NodeId → NodeId) (pre ids : List NodeId) : Prop :=
  ids.map ρ = List.range' (pre.length + 1) ids.length

theorem numbered_append {ρ : NodeId → NodeId} {pre xs ys : List NodeId} :
    Numbered ρ pre (xs ++ ys) ↔ Numbered ρ pre xs ∧ Numbered ρ (pre ++ xs) ys := by
  rw [Numbered, List.map_append, List.length_append, ← List.range'_append_1]
  constructor
  · intro numbered
    obtain ⟨first, second⟩ := List.append_inj numbered (by simp)
    refine ⟨first, ?_⟩
    rw [Numbered, second, List.length_append, Nat.add_right_comm]
  · rintro ⟨first, second⟩
    rw [Numbered] at first second
    rw [first, second, List.length_append, Nat.add_right_comm]

def Filling.renumber (ρ : NodeId → NodeId) : Filling → Filling
  | .list slot allowed ids => .list slot allowed (ids.map ρ)
  | .one slot allowed required id => .one slot allowed required (ρ id)

theorem fillings_renumber (ρ : NodeId → NodeId) (form : Form) :
    fillings (form.renumber ρ) = (fillings form).map (Filling.renumber ρ) := by
  cases form <;> rfl

theorem describes_renumber (ρ : NodeId → NodeId) {a : Attributes} {form : Form}
    (described : a.Describes form) : a.Describes (form.renumber ρ) := by
  cases form <;> exact described

/-- A number has a wire form, which is read as what is below the number in the order of
reading. -/
def Transcribes (t : Tree) (ρ : NodeId → NodeId) (depth : Nat) (allowed : List Kind)
    (id : NodeId) : Prop :=
  ∃ w, wireNode t depth id = .ok (some w) ∧
    ∀ pre, Numbered ρ pre (t.postorder depth id) →
      addNode w allowed (t.transcript ρ pre) =
        .ok (ρ id, t.transcript ρ (pre ++ t.postorder depth id))

section Read
variable {t : Tree} {ρ : NodeId → NodeId} {depth : Nat} {child : NodeId → Option Wire}

theorem addList_transcript {kinds : List Kind} (ids : List NodeId) :
    ∀ {pre : List NodeId}, (∀ x ∈ ids, Transcribes t ρ depth kinds x) →
      (∀ x ∈ ids, wireNode t depth x = .ok (child x)) →
      Numbered ρ pre (ids.flatMap (t.postorder depth)) →
      addList (ids.map child) kinds (t.transcript ρ pre) =
        .ok (ids.map ρ, t.transcript ρ (pre ++ ids.flatMap (t.postorder depth))) := by
  induction ids with
  | nil =>
      intro pre _ _ _
      rw [List.map_nil, List.flatMap_nil, List.append_nil, addList]
      rfl
  | cons x rest ih =>
      intro pre transcribes each numbered
      obtain ⟨⟨w, written, reads⟩, laterReads⟩ := List.forall_mem_cons.mp transcribes
      obtain ⟨made, laterMade⟩ := List.forall_mem_cons.mp each
      rw [written] at made
      rw [List.flatMap_cons, numbered_append] at numbered
      have first := reads pre numbered.1
      have later := ih laterReads laterMade numbered.2
      rw [List.map_cons, ← Except.ok.inj made, addList]
      refine (adding_bind_eq first _).trans ((adding_bind_eq later _).trans ?_)
      rw [List.flatMap_cons, List.append_assoc]
      rfl

theorem Filling.adds_transcript (zero : ρ 0 = 0) {w : Wire} {f : Filling} {pre : List NodeId}
    (filled : ∀ d ∈ f.demands, (d.id = 0 ∧ d.required = false) ∨
      Transcribes t ρ depth d.allowed d.id)
    (each : ∀ d ∈ f.demands, wireNode t depth d.id = .ok (child d.id))
    (written : f.Written w child)
    (numbered : Numbered ρ pre ((f.demands.map Demand.id).flatMap (t.postorder depth))) :
    (f.renumber ρ).Adds w (t.transcript ρ pre)
      (t.transcript ρ (pre ++ (f.demands.map Demand.id).flatMap (t.postorder depth))) := by
  cases f with
  | list slot kinds ids =>
      have places : (Filling.list slot kinds ids).demands.map Demand.id = ids := by
        simp [Filling.demands, Demand.must, Function.comp_def]
      rw [places] at numbered ⊢
      rw [Filling.renumber, Filling.Adds, show w.many slot = ids.map child from written]
      refine addList_transcript ids (fun x member => ?_) (fun x member => ?_) numbered
      · rcases filled (.must kinds x) (List.mem_map_of_mem member) with ⟨_, absurd⟩ | here
        · simp [Demand.must] at absurd
        · exact here
      · exact each (.must kinds x) (List.mem_map_of_mem member)
  | one slot kinds required id =>
      have made := each ⟨id, kinds, required⟩ (by simp [Filling.demands])
      have places : (Filling.one slot kinds required id).demands.map Demand.id = [id] := rfl
      rw [places, List.flatMap_singleton] at numbered ⊢
      rw [Filling.renumber, Filling.Adds, show w.one slot = child id from written]
      rcases filled ⟨id, kinds, required⟩ (by simp [Filling.demands]) with
        ⟨absent, optional⟩ | ⟨c, present, reads⟩
      · obtain rfl : id = 0 := absent
        rw [wireNode_zero] at made
        rw [← Except.ok.inj made, zero, t.postorder_zero, List.append_nil]
        exact ⟨rfl, fun needed => by simp [needed] at optional⟩
      · rw [present] at made
        rw [← Except.ok.inj made]
        exact ⟨reads pre numbered, fun _ => rfl⟩

theorem addsAll_transcript (zero : ρ 0 = 0) {w : Wire} (fs : List Filling) :
    ∀ {pre : List NodeId},
      (∀ f ∈ fs, ∀ d ∈ f.demands, (d.id = 0 ∧ d.required = false) ∨
        Transcribes t ρ depth d.allowed d.id) →
      (∀ f ∈ fs, ∀ d ∈ f.demands, wireNode t depth d.id = .ok (child d.id)) →
      (∀ f ∈ fs, f.Written w child) →
      Numbered ρ pre (((fs.flatMap Filling.demands).map Demand.id).flatMap (t.postorder depth)) →
      AddsAll w (t.transcript ρ pre) (fs.map (Filling.renumber ρ))
        (t.transcript ρ (pre ++
          ((fs.flatMap Filling.demands).map Demand.id).flatMap (t.postorder depth))) := by
  induction fs with
  | nil =>
      intro pre _ _ _ _
      rw [List.flatMap_nil, List.map_nil, List.map_nil, List.flatMap_nil, List.append_nil]
      exact .nil
  | cons f rest ih =>
      intro pre filled each written numbered
      obtain ⟨firstFilled, laterFilled⟩ := List.forall_mem_cons.mp filled
      obtain ⟨firstMade, laterMade⟩ := List.forall_mem_cons.mp each
      obtain ⟨firstWritten, laterWritten⟩ := List.forall_mem_cons.mp written
      rw [List.flatMap_cons, List.map_append, List.flatMap_append, numbered_append] at numbered
      rw [List.flatMap_cons, List.map_append, List.flatMap_append, ← List.append_assoc]
      exact .cons (Filling.adds_transcript zero firstFilled firstMade firstWritten numbered.1)
        (ih laterFilled laterMade laterWritten numbered.2)

/-- What stands in a tree is written and read, if its nodes can be described and its declarations
have variables. -/
theorem transcribes_of_stands (zero : ρ 0 = 0) (described : t.Throughout Describable)
    (declares : DeclaresVars t) : ∀ {depth : Nat} {allowed : List Kind} {id : NodeId},
    t.Stands depth allowed id → Transcribes t ρ depth allowed id := by
  intro depth
  induction depth with
  | zero => exact fun stands => stands.elim
  | succ depth ih =>
      intro allowed id stands
      obtain ⟨w, run⟩ := exists_wireNode stands
      obtain ⟨⟨pos, form⟩, held, kind, places⟩ := stands
      obtain ⟨child, each, made⟩ := wireNode_inv held run
      obtain rfl := Option.some.inj made
      obtain ⟨a, describes⟩ := described id _ held
      refine ⟨_, run, fun pre numbered => ?_⟩
      rw [held.postorder_eq, numbered_append] at numbered
      obtain ⟨below, last⟩ := numbered
      have attrs := attrs_filledWire child ⟨pos, form⟩
      have added : Added (filledWire child ⟨pos, form⟩) allowed (t.transcript ρ pre)
          (form.renumber ρ)
          (t.transcript ρ (pre ++ form.places.flatMap (t.postorder depth))) := by
        refine ⟨?_, ?_, ?_, ?_, ?_⟩
        · rw [attrs, Form.kind_renumber]
          exact checkedKind_nodeAttributes _ form kind
        · rw [attrs]
          exact checkedMods_nodeAttributes describes _
        · rw [attrs]
          exact describes_renumber ρ (describes_nodeAttributes describes _)
        · rw [Form.kind_renumber]
          exact vars_filledWire fun d same => declares _ _ d (same ▸ held)
        · rw [← Form.map_id_demands, ← demands_fillings] at below
          rw [fillings_renumber, ← Form.map_id_demands, ← demands_fillings]
          refine addsAll_transcript zero (fillings form) (fun f member d demanded => ?_)
            (fun f member d demanded => each d.id (place_of_filling member demanded))
            (written_filledWire child pos form) below
          have demand : d ∈ form.demands := by
            rw [← demands_fillings]
            exact List.mem_flatMap.mpr ⟨f, member, demanded⟩
          exact (places d demand).imp_right ih
      have number : ρ id = (pre ++ form.places.flatMap (t.postorder depth)).length + 1 :=
        List.head_eq_of_cons_eq last
      have read := added.addNode_eq
      rw [attrs, pos_nodeAttributes, Tree.size_transcript, ← number] at read
      rw [read, held.postorder_eq, ← List.append_assoc, Tree.transcript_snoc held]
      rfl

end Read

/-- What is written for a compact tree is read as the same tree under other numbers. -/
theorem exists_renumbered {t : Tree} (compact : t.Compact)
    (unit : ∃ pos d, t.Holds t.root ⟨pos, .unit d⟩)
    (described : t.Throughout Describable) (declares : DeclaresVars t) :
    ∃ u t' ρ, unitOfTree t = .ok u ∧ treeOfUnit u = .ok t' ∧ t.Renumbers ρ t' := by
  obtain ⟨f, shaped, full⟩ := compact
  obtain ⟨pos, d, root⟩ := unit
  have stands : t.Stands (t.size + 1) [.unit] t.root :=
    (Tree.Conforms.stands ⟨f, shaped⟩ root (by simp [Node.kind, Form.kind])).mono (Nat.le_succ _)
  have deep : f.height ≤ t.size + 1 := full ▸ f.height_le_length.trans (Nat.le_succ _)
  have order : (t.postorder (t.size + 1) t.root).Perm f.ids := by
    have perm := shaped.follows.perm_postorder deep
    rwa [shaped.roots_eq, List.flatMap_singleton] at perm
  have counted := Tree.renumbers_transcript (order.trans (shaped.perm_range full))
    fun id member => shaped.follows.holds (order.subset member)
  have numbered := map_rankIn (order.nodup_iff.mpr shaped.nodup)
  obtain ⟨w, written, reads⟩ := transcribes_of_stands counted.zero described declares stands
  refine ⟨some w, _, _, written, ?_, counted⟩
  have read := reads [] numbered
  rw [Tree.transcript_nil] at read
  rw [treeOfUnit, addOption, read]
  rfl

end LiteralHoist.Document
