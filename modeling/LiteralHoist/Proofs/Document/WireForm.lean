import LiteralHoist.Document.Draft
import LiteralHoist.Document.WireJson
import LiteralHoist.Proofs.Text.Utf8

/-!
# The wire form, key by key

`Wire.value` gives what a node of the wire form has at a key.  A reader that goes through the keys
leaves a draft that has the values of the keys that were read, and nothing at the others; once all
keys were read, the draft has become the node.

A key that is left out when a node is written is one at which the node has nothing.
-/

set_option autoImplicit false

namespace LiteralHoist.Document

inductive KeyValue where
  | text (s : Text)
  | number (n : Int)
  | words (ws : List Text)
  | field (f : Option WireField)
  | many (ws : List (Option Wire))
  | one (w : Option Wire)

def Wire.value (w : Wire) : Key → KeyValue
  | .text k => .text (w.attrs.text k)
  | .number k => .number (w.attrs.number k)
  | .words k => .words (w.attrs.words k)
  | .field => .field w.attrs.field
  | .many slot => .many (w.many slot)
  | .one slot => .one (w.one slot)

def Key.blank : Key → KeyValue
  | .text _ => .text ""
  | .number _ => .number 0
  | .words _ => .words []
  | .field => .field none
  | .many _ => .many []
  | .one _ => .one none

theorem Wire.ext_value {v w : Wire} (same : ∀ key, v.value key = w.value key) : v = w := by
  obtain ⟨⟨text, number, words, field⟩, many, one⟩ := v
  obtain ⟨⟨text', number', words', field'⟩, many', one'⟩ := w
  have texts : text = text' := funext fun k => by simpa [value, attrs] using same (.text k)
  have numbers : number = number' := funext fun k => by simpa [value, attrs] using same (.number k)
  have wordLists : words = words' := funext fun k => by simpa [value, attrs] using same (.words k)
  have fields : field = field' := by simpa [value, attrs] using same .field
  have lists : many = many' := funext fun k => by
    simpa [value, Wire.many] using same (.many k)
  have singles : one = one' := funext fun k => by simpa [value, Wire.one] using same (.one k)
  rw [texts, numbers, wordLists, fields, lists, singles]

theorem Key.mem_all (key : Key) : key ∈ Key.all := by
  cases key with
  | text k => cases k <;> decide
  | number k => cases k <;> decide
  | words k => cases k <;> decide
  | field => decide
  | many k => cases k <;> decide
  | one k => cases k <;> decide

theorem Key.nodup_all : Key.all.Nodup := by
  decide

section Draft
variable (d : Draft) (key : Key)

attribute [local simp] Wire.value Draft.finish Draft.setAttrs Draft.setMany Draft.setOne
  Draft.attrs Draft.many Draft.one Wire.attrs Wire.many Wire.one Attributes.setText
  Attributes.setNumber Attributes.setWords

theorem value_setText (k : TextKey) (s : Text) (p : PastWords) :
    (d.setAttrs (d.attrs.setText k s) p).finish.value key =
      if key = .text k then .text s else d.finish.value key := by
  obtain ⟨attrs, _, many, _, one⟩ := d
  cases key with
  | text k' => by_cases same : k' = k <;> simp [same]
  | _ => simp

theorem value_setNumber (k : NumberKey) (n : Int) (p : PastWords) :
    (d.setAttrs (d.attrs.setNumber k n) p).finish.value key =
      if key = .number k then .number n else d.finish.value key := by
  obtain ⟨attrs, _, many, _, one⟩ := d
  cases key with
  | number k' => by_cases same : k' = k <;> simp [same]
  | _ => simp

theorem value_setWords (k : WordsKey) (ws : List Text) (p : PastWords) :
    (d.setAttrs (d.attrs.setWords k ws) p).finish.value key =
      if key = .words k then .words ws else d.finish.value key := by
  obtain ⟨attrs, _, many, _, one⟩ := d
  cases key with
  | words k' => by_cases same : k' = k <;> simp [same]
  | _ => simp

theorem value_setField (field : Option WireField) (p : PastWords) :
    (d.setAttrs { d.attrs with field } p).finish.value key =
      if key = .field then .field field else d.finish.value key := by
  obtain ⟨attrs, _, many, _, one⟩ := d
  cases key <;> simp

theorem value_setMany (slot : ListSlot) (list : List (Option Draft) × List (Option Draft)) :
    (d.setMany slot list).finish.value key =
      if key = .many slot then .many (Draft.finishList list.1) else d.finish.value key := by
  obtain ⟨attrs, _, many, _, one⟩ := d
  cases key with
  | many slot' => by_cases same : slot' = slot <;> simp [same]
  | _ => simp

theorem value_setOne (slot : Slot) (child : Option Draft) :
    (d.setOne slot child).finish.value key =
      if key = .one slot then .one (Draft.finishOption child) else d.finish.value key := by
  obtain ⟨attrs, _, many, _, one⟩ := d
  cases key with
  | one slot' => by_cases same : slot' = slot <;> simp [same]
  | _ => simp

end Draft

theorem attrs_finish (d : Draft) : d.finish.attrs = d.attrs := by
  cases d; rfl

theorem many_finish (d : Draft) (slot : ListSlot) :
    d.finish.many slot = Draft.finishList (d.many slot) := by
  cases d; rfl

theorem one_finish (d : Draft) (slot : Slot) :
    d.finish.one slot = Draft.finishOption (d.one slot) := by
  cases d; rfl

/-- A draft has the values of a node at the keys that were read, nothing at the others, and nothing
in the background. -/
structure Begun (w : Wire) (done : List Key) (d : Draft) : Prop where
  value : ∀ key, d.finish.value key = if key ∈ done then w.value key else key.blank
  pastWords : d.pastWords = {}
  past : ∀ slot, d.past slot = []

section Begun
variable {w : Wire} {done : List Key} {d d' : Draft} {key : Key}

theorem begun_empty (w : Wire) : Begun w [] .empty where
  value key := by cases key <;> rfl
  pastWords := rfl
  past _ := rfl

theorem Begun.blank (begun : Begun w done d) (fresh : key ∉ done) :
    d.finish.value key = key.blank := by
  rw [begun.value, if_neg fresh]

theorem Begun.no_words {k : WordsKey} (begun : Begun w done d) (fresh : Key.words k ∉ done) :
    d.attrs.words k = [] := by
  simpa [Wire.value, attrs_finish, Key.blank] using begun.blank fresh

theorem Begun.no_field (begun : Begun w done d) (fresh : Key.field ∉ done) :
    d.attrs.field = none := by
  simpa [Wire.value, attrs_finish, Key.blank] using begun.blank fresh

theorem Begun.no_list {slot : ListSlot} (begun : Begun w done d) (fresh : Key.many slot ∉ done) :
    d.many slot = [] := by
  have nothing := begun.blank fresh
  simp only [Wire.value, many_finish, Key.blank, KeyValue.many.injEq] at nothing
  cases list : d.many slot with
  | nil => rfl
  | cons first rest => simp [list, Draft.finishList] at nothing

theorem Begun.no_child {slot : Slot} (begun : Begun w done d) (fresh : Key.one slot ∉ done) :
    d.one slot = none := by
  have nothing := begun.blank fresh
  simp only [Wire.value, one_finish, Key.blank, KeyValue.one.injEq] at nothing
  cases child : d.one slot with
  | none => rfl
  | some first => simp [child, Draft.finishOption] at nothing

theorem Begun.read (begun : Begun w done d)
    (values : ∀ k, d'.finish.value k = if k = key then w.value key else d.finish.value k)
    (pastWords : d'.pastWords = {}) (past : ∀ slot, d'.past slot = []) :
    Begun w (key :: done) d' := by
  refine ⟨fun k => ?_, pastWords, past⟩
  rw [values, begun.value]
  by_cases same : k = key
  · simp [same]
  · simp [same, List.mem_cons]

theorem Begun.skip (begun : Begun w done d) (fresh : key ∉ done)
    (nothing : w.value key = key.blank) : Begun w (key :: done) d := by
  refine begun.read (fun k => ?_) begun.pastWords begun.past
  split
  · rename_i same
    rw [same, begun.blank fresh, nothing]
  · rfl

end Begun

/-- A draft of which all keys were read is the node. -/
theorem Begun.finish {w : Wire} {done : List Key} {d : Draft} (begun : Begun w done d)
    (all : Key.all ⊆ done) : d.finish = w := by
  refine Wire.ext_value fun key => ?_
  rw [begun.value, if_pos (all key.mem_all)]

section Keys
variable {ε E : Type} {run : Draft → List E → Except ε Draft} {items : Key → List E} {w : Wire}

/-- A reader that reads what was written for one key reads what was written for a list of keys. -/
theorem Begun.keys (stop : ∀ d, run d [] = .ok d)
    (step : ∀ {done d key}, Begun w done d → key ∉ done → ∀ rest,
      ∃ d', run d (items key ++ rest) = run d' rest ∧ Begun w (key :: done) d')
    (keys : List Key) : ∀ {done : List Key} {d : Draft}, Begun w done d → keys.Nodup →
      (∀ key ∈ keys, key ∉ done) →
      ∃ d', run d (keys.flatMap items) = .ok d' ∧ Begun w (keys.reverse ++ done) d' := by
  induction keys with
  | nil => exact fun begun _ _ => ⟨_, stop _, begun⟩
  | cons key rest ih =>
      intro done d begun nodup fresh
      obtain ⟨notLater, nodupRest⟩ := List.nodup_cons.mp nodup
      have later : ∀ k ∈ rest, k ∉ key :: done := by
        intro k member inDone
        rcases List.mem_cons.mp inDone with rfl | old
        · exact notLater member
        · exact fresh k (by simp [member]) old
      obtain ⟨d', first, begun'⟩ := step begun (fresh key (by simp)) (rest.flatMap items)
      obtain ⟨d'', others, begun''⟩ := ih begun' nodupRest later
      exact ⟨d'', first.trans others, by simpa using begun''⟩

/-- A reader that reads what was written for one key reads the whole node. -/
theorem finish_keys (stop : ∀ d, run d [] = .ok d)
    (step : ∀ {done d key}, Begun w done d → key ∉ done → ∀ rest,
      ∃ d', run d (items key ++ rest) = run d' rest ∧ Begun w (key :: done) d') :
    ∃ d, run .empty (Key.all.flatMap items) = .ok d ∧ d.finish = w := by
  obtain ⟨d, whole, begun⟩ := Begun.keys stop step Key.all (begun_empty w) Key.nodup_all (by simp)
  exact ⟨d, whole, begun.finish (by simp)⟩

end Keys

structure WireField.Plain (f : WireField) : Prop where
  owner : f.owner.IsUnicode
  name : f.name.IsUnicode
  mods : ∀ s ∈ f.mods, s.IsUnicode
  type : f.type.IsUnicode

def Attributes.Fits (a : Attributes) : Prop :=
  ∀ k, fits64 (a.number k) = true

structure Attributes.Plain (a : Attributes) : Prop where
  text : ∀ k, (a.text k).IsUnicode
  number : a.Fits
  words : ∀ k, ∀ s ∈ a.words k, s.IsUnicode
  field : ∀ f, a.field = some f → f.Plain

/-- The attributes of a node and of all nodes below it have a property. -/
inductive Wire.Every (P : Attributes → Prop) : Wire → Prop where
  | node {attrs : Attributes} {many : ListSlot → List (Option Wire)} {one : Slot → Option Wire}
      (here : P attrs) (lists : ∀ slot w, some w ∈ many slot → w.Every P)
      (singles : ∀ slot w, one slot = some w → w.Every P) : Every P (.node attrs many one)

theorem Wire.Every.inv {P : Attributes → Prop} {w : Wire} (every : w.Every P) :
    P w.attrs ∧ (∀ slot c, some c ∈ w.many slot → c.Every P) ∧
      ∀ slot c, w.one slot = some c → c.Every P := by
  cases every with
  | node here lists singles => exact ⟨here, lists, singles⟩

theorem Wire.Every.imp {P R : Attributes → Prop} (implies : ∀ a, P a → R a) {w : Wire}
    (every : w.Every P) : w.Every R := by
  induction every with
  | node here _ _ lists singles => exact .node (implies _ here) lists singles

abbrev Wire.Plain (w : Wire) : Prop :=
  w.Every Attributes.Plain

end LiteralHoist.Document
