import LiteralHoist.Consolidate.Apply
import LiteralHoist.Proofs.Source.Shape

/-!
# Renamings

Renamings are carried out one after the other, each on its variable and on its references.  All
together revise the tree: a variable gets the name of the last renaming of it, a reference that of
the last renaming with it among its references, and everything else stays.
-/

set_option autoImplicit false

namespace LiteralHoist.Consolidate

open LiteralHoist.Source

def renamedVar (name : Text) : Form → Form
  | .namedVar _ init => .namedVar name init
  | f => f

def relabel (r : Renaming) (id : NodeId) (f : Form) : Form :=
  let f := if id = r.var then renamedVar r.name f else f
  if id ∈ r.refs then renamedForm r.name f else f

theorem renamedForm_renamedForm (first second : Text) (f : Form) :
    renamedForm second (renamedForm first f) = renamedForm second f := by
  cases f with
  | ident name type field => cases field <;> rfl
  | fieldAccess x name type field => cases field <;> rfl
  | _ => rfl

/-- A revision of the forms of nodes, which keeps their positions. -/
def reform (change : NodeId → Form → Form) (id : NodeId) (n : Node) : Node :=
  { n with form := change id n.form }

theorem renameReferences_revises (name : Text) (refs : List NodeId) : ∀ {t : Tree},
    (∀ id ∈ refs, ∃ n, t.Holds id n) →
    ∃ t', refs.foldlM (renameReference name) t = .ok t' ∧
      t.Revises t' (reform fun id f => if id ∈ refs then renamedForm name f else f) := by
  induction refs with
  | nil =>
      intro t _
      exact ⟨t, rfl, (Tree.Revises.refl t).congr fun id n _ => by simp [reform]⟩
  | cons ref rest ih =>
      intro t held
      obtain ⟨n, here⟩ := held ref (by simp)
      obtain ⟨u, written, first⟩ := Tree.set_of_holds here
        { n with form := renamedForm name n.form }
      obtain ⟨t', run, second⟩ := ih (t := u) fun id member => by
        obtain ⟨m, there⟩ := held id (by simp [member])
        exact ⟨_, first.holds there⟩
      refine ⟨t', ?_, (first.trans second).congr fun id m there => ?_⟩
      · rw [List.foldlM_cons, renameReference, here.node?_eq, ok_bind]
        simp only [written, ok_bind]
        exact run
      · by_cases same : id = ref
        · subst same
          obtain rfl := there.unique here
          by_cases again : id ∈ rest <;> simp [reform, again, renamedForm_renamedForm]
        · simp [reform, same]

theorem carryOutRenaming_revises {t : Tree} {r : Renaming} {pos : Position} {old : Text}
    {init : NodeId} (var : t.Holds r.var ⟨pos, .namedVar old init⟩)
    (refs : ∀ id ∈ r.refs, ∃ n, t.Holds id n) :
    ∃ t', carryOutRenaming t r = .ok t' ∧ t.Revises t' (reform (relabel r)) := by
  obtain ⟨u, written, first⟩ := Tree.set_of_holds var ⟨pos, .namedVar r.name init⟩
  obtain ⟨t', run, second⟩ := renameReferences_revises r.name r.refs (t := u)
    fun id member => by
      obtain ⟨n, held⟩ := refs id member
      exact ⟨_, first.holds held⟩
  refine ⟨t', ?_, (first.trans second).congr fun id n held => ?_⟩
  · rw [carryOutRenaming, renameVar, var.node?_eq, ok_bind]
    simp only [written, ok_bind]
    exact run
  · by_cases same : id = r.var
    · subst same
      obtain rfl := held.unique var
      simp [reform, relabel, renamedVar]
    · simp [reform, relabel, same]

/-- The name that the last of the renamings gives that touch something. -/
def lastName (touches : Renaming → Bool) (rs : List Renaming) : Option Text :=
  (rs.filter touches).getLast?.map Renaming.name

def underLast (rename : Text → Form → Form) (last : Option Text) (f : Form) : Form :=
  match last with
  | some name => rename name f
  | none => f

def relabelAll (rs : List Renaming) (id : NodeId) (f : Form) : Form :=
  underLast renamedForm (lastName (fun r => decide (id ∈ r.refs)) rs)
    (underLast renamedVar (lastName (fun r => decide (id = r.var)) rs) f)

theorem lastName_append (touches : Renaming → Bool) (rs : List Renaming) (r : Renaming) :
    lastName touches (rs ++ [r]) =
      if touches r then some r.name else lastName touches rs := by
  unfold lastName
  cases touched : touches r <;> simp [List.filter_append, touched]

theorem renamedVar_renamedVar (first second : Text) (f : Form) :
    renamedVar second (renamedVar first f) = renamedVar second f := by
  cases f <;> rfl

theorem renamedVar_renamedForm (first second : Text) (f : Form) :
    renamedVar second (renamedForm first f) = renamedForm first (renamedVar second f) := by
  cases f <;> rfl

theorem underLast_ite {rename : Text → Form → Form}
    (absorbs : ∀ first second f, rename second (rename first f) = rename second f)
    (touched : Prop) [Decidable touched] (name : Text) (last : Option Text) (f : Form) :
    underLast rename (if touched then some name else last) f =
      if touched then rename name (underLast rename last f) else underLast rename last f := by
  by_cases here : touched
  · cases last <;> simp [underLast, absorbs, here]
  · simp [here]

theorem renamedVar_underLast (name : Text) (last : Option Text) (f : Form) :
    renamedVar name (underLast renamedForm last f) =
      underLast renamedForm last (renamedVar name f) := by
  cases last with
  | none => rfl
  | some first => exact renamedVar_renamedForm first name f

theorem relabelAll_append (rs : List Renaming) (r : Renaming) (id : NodeId) (f : Form) :
    relabelAll (rs ++ [r]) id f = relabel r id (relabelAll rs id f) := by
  simp only [relabelAll, lastName_append, underLast_ite renamedForm_renamedForm,
    underLast_ite renamedVar_renamedVar, decide_eq_true_eq, relabel]
  by_cases isVar : id = r.var
  · simp only [if_pos isVar, renamedVar_underLast]
  · simp only [if_neg isVar]

theorem relabelAll_namedVar (rs : List Renaming) (id : NodeId) (name : Text) (init : NodeId) :
    relabelAll rs id (.namedVar name init) =
      .namedVar ((lastName (fun r => decide (id = r.var)) rs).getD name) init := by
  unfold relabelAll
  cases lastName (fun r => decide (id = r.var)) rs <;>
    cases lastName (fun r => decide (id ∈ r.refs)) rs <;> rfl

theorem renamings_revise {t : Tree} {rs : List Renaming}
    (vars : ∀ r ∈ rs, ∃ pos old init, t.Holds r.var ⟨pos, .namedVar old init⟩)
    (refs : ∀ r ∈ rs, ∀ id ∈ r.refs, ∃ n, t.Holds id n) :
    ∃ t', rs.foldlM carryOutRenaming t = .ok t' ∧ t.Revises t' (reform (relabelAll rs)) := by
  induction rs using List.reverseRecOn with
  | nil => exact ⟨t, rfl, (Tree.Revises.refl t).congr fun id n _ => rfl⟩
  | append_singleton rs r ih =>
      obtain ⟨u, run, first⟩ := ih (fun r' member => vars r' (by simp [member]))
        fun r' member => refs r' (by simp [member])
      obtain ⟨pos, old, init, var⟩ := vars r (by simp)
      have var' := first.holds var
      rw [reform, relabelAll_namedVar] at var'
      obtain ⟨t', step, second⟩ := carryOutRenaming_revises var' fun id member => by
        obtain ⟨n, held⟩ := refs r (by simp) id member
        exact ⟨_, first.holds held⟩
      refine ⟨t', ?_, (first.trans second).congr fun id n _ => ?_⟩
      · rw [List.foldlM_append, run, ok_bind, List.foldlM_cons, step]
        rfl
      · simp [reform, relabelAll_append]

/-- What no renaming of one form changes, all renamings keep. -/
theorem relabelAll_keeps {α : Type} (view : Form → α)
    (keepsVar : ∀ name f, view (renamedVar name f) = view f)
    (keepsForm : ∀ name f, view (renamedForm name f) = view f) (rs : List Renaming) (id : NodeId)
    (f : Form) : view (relabelAll rs id f) = view f := by
  unfold relabelAll
  cases lastName (fun r => decide (id = r.var)) rs <;>
    cases lastName (fun r => decide (id ∈ r.refs)) rs <;>
      simp [underLast, keepsVar, keepsForm]

theorem relabelAll_kind (rs : List Renaming) (id : NodeId) (f : Form) :
    (relabelAll rs id f).kind = f.kind :=
  relabelAll_keeps Form.kind (fun _ f => by cases f <;> rfl) (fun _ f => by cases f <;> rfl) rs id f

theorem relabelAll_demands (rs : List Renaming) (id : NodeId) (f : Form) :
    (relabelAll rs id f).demands = f.demands :=
  relabelAll_keeps Form.demands (fun _ f => by cases f <;> rfl) (fun _ f => by cases f <;> rfl)
    rs id f

theorem relabelAll_mentionedType (rs : List Renaming) (id : NodeId) (f : Form) :
    (relabelAll rs id f).mentionedType = f.mentionedType :=
  relabelAll_keeps Form.mentionedType (fun _ f => by cases f <;> rfl)
    (fun _ f => by cases f <;> rfl) rs id f

theorem relabelAll_children (rs : List Renaming) (id : NodeId) (f : Form) :
    (relabelAll rs id f).children = f.children := by
  rw [Form.children, Form.children, ← Form.map_id_demands, ← Form.map_id_demands,
    relabelAll_demands]

def bearsName : Kind → Bool
  | .namedVar | .ident | .fieldAccess => true
  | _ => false

theorem relabelAll_unnamed (rs : List Renaming) (id : NodeId) {f : Form}
    (unnamed : bearsName f.kind = false) : relabelAll rs id f = f := by
  have keepsVar : ∀ name, renamedVar name f = f := by
    intro name
    cases f <;> first | rfl | simp [Form.kind, bearsName] at unnamed
  have keepsForm : ∀ name, renamedForm name f = f := by
    intro name
    cases f <;> first | rfl | simp [Form.kind, bearsName] at unnamed
  unfold relabelAll
  cases lastName (fun r => decide (id = r.var)) rs <;>
    cases lastName (fun r => decide (id ∈ r.refs)) rs <;>
      simp [underLast, keepsVar, keepsForm]

theorem lastName_eq_none {touches : Renaming → Bool} {rs : List Renaming}
    (untouched : ∀ r ∈ rs, touches r = false) : lastName touches rs = none := by
  have nothing : rs.filter touches = [] := by
    rw [List.filter_eq_nil_iff]
    intro r member
    simp [untouched r member]
  simp [lastName, nothing]

theorem lastName_eq_some {touches : Renaming → Bool} {rs : List Renaming} {r : Renaming}
    (member : r ∈ rs) (touched : touches r = true)
    (agree : ∀ r' ∈ rs, touches r' = true → r'.name = r.name) :
    lastName touches rs = some r.name := by
  have present : r ∈ rs.filter touches := List.mem_filter.mpr ⟨member, touched⟩
  obtain ⟨last, isLast⟩ := Option.isSome_iff_exists.mp
    (List.getLast?_isSome.mpr (List.ne_nil_of_mem present))
  obtain ⟨inside, touches'⟩ := List.mem_filter.mp (List.mem_of_getLast? isLast)
  rw [lastName, isLast, Option.map_some, agree last inside touches']

theorem relabelAll_untouched {rs : List Renaming} {id : NodeId}
    (noVar : ∀ r ∈ rs, id ≠ r.var) (noRef : ∀ r ∈ rs, id ∉ r.refs) (f : Form) :
    relabelAll rs id f = f := by
  have var : lastName (fun r => decide (id = r.var)) rs = none :=
    lastName_eq_none fun r member => by simpa using noVar r member
  have ref : lastName (fun r => decide (id ∈ r.refs)) rs = none :=
    lastName_eq_none fun r member => by simpa using noRef r member
  simp [relabelAll, var, ref, underLast]

/-- A reference gets the name on which all renamings of it agree. -/
theorem relabelAll_reference {rs : List Renaming} {id : NodeId} {r : Renaming}
    (noVar : ∀ r ∈ rs, id ≠ r.var) (member : r ∈ rs) (isRef : id ∈ r.refs)
    (agree : ∀ r' ∈ rs, id ∈ r'.refs → r'.name = r.name) (f : Form) :
    relabelAll rs id f = renamedForm r.name f := by
  have var : lastName (fun r => decide (id = r.var)) rs = none :=
    lastName_eq_none fun r member => by simpa using noVar r member
  have ref : lastName (fun r => decide (id ∈ r.refs)) rs = some r.name :=
    lastName_eq_some member (by simpa using isRef) fun r' member' touched =>
      agree r' member' (by simpa using touched)
  simp [relabelAll, var, ref, underLast]

end LiteralHoist.Consolidate
