import LiteralHoist.Proofs.Document.Depth

/-!
# Units of any depth

The units of a family have a call with the same literal twice, in more and more parentheses.  Such a
unit is read from its JSON form up to the depth that JSON allows.
-/

set_option autoImplicit false

namespace LiteralHoist.Document

open LiteralHoist.Source

/-- The forms above the call: parentheses, and what makes it the initial value of a field. -/
inductive Layer where
  | parens
  | variable
  | declaration
  | «class»
  | unit

namespace Layer

def form (x : NodeId) : Layer → Form
  | parens => .parens x
  | «variable» => .namedVar "x" x
  | declaration => .varDecl { type := "String", vars := [x] }
  | «class» => .classDecl { name := "A", fqn := "A", members := [x] }
  | unit => .unit { name := "A.java", classes := [x] }

def kinds : Layer → List Kind
  | parens | «variable» => Kind.expressions
  | declaration => [.namedVar]
  | «class» => Kind.members
  | unit => [.classDecl]

def levels : Layer → Nat
  | parens | «variable» => 1
  | declaration | «class» | unit => 2

end Layer

/-- A tree, of which the last node is the topmost, and its wire form. -/
structure Stack where
  wire : Wire
  tree : Tree

def Stack.add (s : Stack) (layer : Layer) : Stack where
  wire := filledWire (fun _ => some s.wire) ⟨{}, layer.form s.tree.size⟩
  tree := (s.tree.push ⟨{}, layer.form s.tree.size⟩).1

/-- The wire form is read as the tree, where a node of some kinds is asked for, and all literals lie
within so many containers. -/
structure Stack.Sound (s : Stack) (kinds : List Kind) (k : Nat) : Prop where
  added : addNode s.wire kinds {} = .ok (s.tree.size, s.tree)
  plain : s.wire.Throughout Attributes.Plain fun _ => True
  depth : s.wire.toJson.depth ≤ k + 1
  deep : ∀ x pos lit, s.tree.Holds x ⟨pos, .literal lit⟩ → Encloses s.tree x s.tree.size k

theorem addList_single {w : Wire} {allowed : List Kind} {t u : Tree} {id : NodeId}
    (run : addNode w allowed t = .ok (id, u)) : addList [some w] allowed t = .ok ([id], u) := by
  rw [addList]
  exact adding_bind_eq run _

theorem plain_filledWire {child : NodeId → Option Wire} {form : Form}
    (unicode : ∀ s ∈ form.texts, s.IsUnicode)
    (each : ∀ x c, child x = some c → c.Throughout Attributes.Plain fun _ => True) :
    (filledWire child ⟨{}, form⟩).Throughout Attributes.Plain fun _ => True :=
  throughout_filledWire (PlainNode.attributes ⟨unicode, rfl, rfl⟩) trivial
    (fun _ _ => trivial) fun x _ c made => each x c made

section Layer
variable {w : Wire} {t : Tree} {x y id : NodeId} {k : Nat} (layer : Layer)

theorem Layer.unicode : ∀ s ∈ (layer.form x).texts, s.IsUnicode := by
  cases layer <;> simp [form, Form.texts, Text.isUnicode_ofString]

theorem Layer.described : ∃ a : Attributes, a.Describes (layer.form x) := by
  cases layer with
  | parens => exact ⟨{}, trivial⟩
  | «variable» => exact ⟨({} : Attributes).setText .name "x", rfl⟩
  | declaration => exact ⟨({} : Attributes).setText .type "String", rfl, rfl⟩
  | «class» => exact ⟨(({} : Attributes).setText .name "A").setText .fqn "A", rfl, rfl, rfl⟩
  | unit => exact ⟨({} : Attributes).setText .name "A.java", rfl, rfl, rfl⟩

theorem Layer.adds (run : addNode w layer.kinds {} = .ok (x, t)) :
    AddsAll (filledWire (fun _ => some w) ⟨{}, layer.form x⟩) {} (fillings (layer.form x)) t := by
  have list : addList [some w] layer.kinds {} = .ok ([x], t) := addList_single run
  cases layer with
  | parens | «variable» => exact .cons ⟨run, fun _ => rfl⟩ .nil
  | declaration | «class» => exact .cons (u := {}) rfl (.cons list .nil)
  | unit => exact .cons list .nil

theorem Layer.depth_le :
    (filledWire (fun _ => some w) ⟨{}, layer.form x⟩).toJson.depth ≤
      w.toJson.depth + layer.levels := by
  have positive : 1 ≤ w.toJson.depth := by
    rw [toJson_eq, Json.depth]
    exact Nat.le_add_left 1 _
  have child : ∀ c, some w = some c → c.toJson.depth ≤ w.toJson.depth := by
    rintro c ⟨rfl⟩
    exact Nat.le_refl _
  cases layer with
  | parens | «variable» =>
      exact depth_filledWire_le positive rfl (by simp [form, listChildren]) fun _ _ => child
  | declaration | «class» | unit =>
      exact depth_filledWire_le (Nat.le_add_left 1 _) rfl
        (fun _ _ _ _ c made => Nat.succ_le_succ (child c made)) (by simp [form, singleChildren])

theorem Layer.encloses (held : t.Holds id ⟨{}, layer.form x⟩) (lower : Encloses t y x k) :
    Encloses t y id (k + layer.levels) := by
  cases layer with
  | parens | «variable» => exact .one held (List.mem_singleton.mpr rfl) lower
  | declaration | «class» =>
      exact .list held (List.mem_pair.mpr (.inr rfl)) (List.mem_singleton.mpr rfl) lower
  | unit => exact .list held (List.mem_singleton.mpr rfl) (List.mem_singleton.mpr rfl) lower

theorem Stack.Sound.add {s : Stack} {allowed : List Kind} (sound : s.Sound layer.kinds k)
    (fits : ∀ x, (layer.form x).kind ∈ allowed) :
    (s.add layer).Sound allowed (k + layer.levels) where
  added := by
    obtain ⟨a, described⟩ := layer.described
    rw [Stack.add, Tree.size_push]
    refine addNode_filledWire (fits _) described (fun d same => ?_) (layer.adds sound.added)
    cases layer <;> cases same
    simp
  plain := by
    rw [Stack.add]
    exact plain_filledWire layer.unicode fun _ c made => Option.some.inj made ▸ sound.plain
  depth := layer.depth_le.trans (by have below := sound.depth; omega)
  deep x pos lit held := by
    rw [Stack.add, Tree.size_push]
    refine layer.encloses (s.tree.holds_push_new _) (Encloses.kept ?_ fun _ _ there => there.push _)
    rcases Tree.holds_of_push held with same | old
    · cases layer <;> simp [Layer.form] at same
    · exact sound.deep x pos lit old

end Layer

def repeatedLiteral : Form :=
  .literal { value := "a", type := "String" }

def repeatedCall : Stack where
  wire := filledWire (fun id => if id = 0 then none else
    some (filledWire (fun _ => none) ⟨{}, repeatedLiteral⟩)) ⟨{}, .call 0 "g" [1, 2] ""⟩
  tree := { nodes := #[some ⟨{}, repeatedLiteral⟩, some ⟨{}, repeatedLiteral⟩,
    some ⟨{}, .call 0 "g" [1, 2] ""⟩] }

def parenthesized : Nat → Stack
  | 0 => repeatedCall
  | n + 1 => (parenthesized n).add .parens

/-- A field of which the call in parentheses is the initial value. -/
def nestedField (n : Nat) : Stack :=
  ((parenthesized n).add .variable).add .declaration

def nestedUnit (n : Nat) : Stack :=
  ((nestedField n).add .class).add .unit

end LiteralHoist.Document
