import LiteralHoist.Proofs.Consolidate.Written
import LiteralHoist.Proofs.Source.Renumber

/-!
# Runs under other numbers

A run does not depend on how the nodes of a tree are numbered.  On a tree under other numbers it
finds the same constants, names and occurrences, makes the same plans up to the numbers in them,
and leaves the same tree under other numbers.  New nodes get the same numbers in both trees.

What reads the tree is compared by an equation.  What writes to it is compared where it succeeds,
since a fault may name the number that it is about.
-/

set_option autoImplicit false

namespace LiteralHoist.Consolidate

open LiteralHoist.Source

section Plan
variable (ρ : NodeId → NodeId)

def Constant.renumber (c : Constant) : Constant :=
  { c with var := ρ c.var }

def Occurrences.renumber (o : Occurrences) : Occurrences :=
  { o with sites := o.sites.map ρ }

def Group.renumber (g : Group) : Group :=
  { g with sites := g.sites.map ρ, var := ρ g.var }

def Skip.renumber (s : Skip) : Skip :=
  { s with sites := s.sites.map ρ }

def Plan.renumber (p : Plan) : Plan where
  classId := ρ p.classId
  fqn := p.fqn
  groups := p.groups.map (Group.renumber ρ)
  skipped := p.skipped.map (Skip.renumber ρ)

def Renaming.renumber (r : Renaming) : Renaming :=
  { r with var := ρ r.var, refs := r.refs.map ρ }

end Plan

variable {t t' : Tree} {ρ : NodeId → NodeId}

/-! ## Nodes -/

theorem boundName_renumber (ρ : NodeId → NodeId) (fqn : Text) (entry : Option Node) :
    boundName fqn (entry.map (Node.renumber ρ)) = boundName fqn entry := by
  rcases entry with _ | ⟨pos, form⟩
  · rfl
  · cases form <;> rfl

theorem decidesContext_renumber (ρ : NodeId → NodeId) (entry : Option Node) :
    decidesContext (entry.map (Node.renumber ρ)) = decidesContext entry := by
  rcases entry with _ | ⟨pos, form⟩
  · rfl
  · cases form <;> rfl

theorem contextBelow_renumber (ρ : NodeId → NodeId) (entry : Option Node) :
    contextBelow (entry.map (Node.renumber ρ)) = contextBelow entry := by
  rcases entry with _ | ⟨pos, form⟩
  · rfl
  · cases form <;> rfl

theorem refersTo_renumber (ρ : NodeId → NodeId) (fqn name : Text) (entry : Option Node) :
    refersTo fqn name (entry.map (Node.renumber ρ)) = refersTo fqn name entry := by
  rcases entry with _ | ⟨pos, form⟩
  · rfl
  · cases form with
    | fieldAccess x text type field => cases field <;> rfl
    | _ => rfl

theorem groupByValue_renumber (ρ : NodeId → NodeId) (found : List (Text × NodeId)) :
    groupByValue (found.map (Prod.map id ρ)) =
      (groupByValue found).map (Occurrences.renumber ρ) := by
  have values : (found.map (Prod.map id ρ)).map Prod.fst = found.map Prod.fst := by
    simp [Function.comp_def]
  rw [groupByValue, groupByValue, values, List.map_map]
  refine List.map_congr_left fun value _ => ?_
  simp [Occurrences.renumber, List.filter_map, Function.comp_def]

section Read
variable {t t' : Tree} {ρ : NodeId → NodeId} (same : t.Renumbers ρ t')
include same

/-! ## Constants and bound names -/

theorem classAt_renumber (c : NodeId) :
    classAt t' (ρ c) = ClassDecl.renumber ρ <$> classAt t c := by
  rw [classAt, classAt, same.classAt?_eq]
  refine bind_map_of_agree (fun entry => ?_) (t.classAt? c)
  cases entry <;> rfl

theorem constantOf_renumber (id : NodeId) :
    constantOf t' (ρ id) = List.map (Constant.renumber ρ) <$> constantOf t id := by
  refine same.bind_form?_map (fun entry => ?_) id
  rcases entry with _ | form
  · rfl
  · cases form with
    | namedVar name init =>
        refine same.bind_form?_map (fun value => ?_) init
        rcases value with _ | form
        · rfl
        · cases form with
          | literal lit =>
              cases isString : lit.isString <;> simp [Form.renumber, isString, Constant.renumber]
          | _ => rfl
    | _ => rfl

theorem memberConstants_renumber (member : NodeId) :
    memberConstants t' (ρ member) =
      List.map (Constant.renumber ρ) <$> memberConstants t member := by
  refine same.bind_form?_map (fun entry => ?_) member
  rcases entry with _ | form
  · rfl
  · cases form with
    | varDecl d =>
        have each := mapM_map_of_agree (constantOf_renumber same) d.vars
        cases declares : declaresConstants d with
        | false =>
            have declares' : declaresConstants (d.renumber ρ) = false := declares
            simp [Form.renumber, declares, declares']
        | true =>
            have declares' : declaresConstants (d.renumber ρ) = true := declares
            simp only [Option.map_some, Form.renumber, declares, declares', if_true]
            rw [VarDecl.renumber, each]
            exact bind_map_of_agree (fun found => congrArg Except.ok List.map_flatten.symm) _
    | _ => rfl

theorem constants_renumber (c : NodeId) :
    constants t' (ρ c) = List.map (Constant.renumber ρ) <$> constants t c := by
  rw [constants, constants, classAt_renumber same]
  refine bind_map_of_agree (fun d => ?_) (classAt t c)
  have each := mapM_map_of_agree (memberConstants_renumber same) d.members
  rw [ClassDecl.renumber, each]
  refine bind_map_of_agree (fun found => congrArg Except.ok ?_) _
  rw [← List.map_flatten, List.foldl_map]
  change List.foldl _ (List.map (Constant.renumber ρ) []) _ = _
  refine List.foldl_hom (List.map (Constant.renumber ρ)) fun kept c => ?_
  simp only [List.any_map, Function.comp_def, Constant.renumber]
  split
  · rfl
  · rw [List.map_append]
    rfl

theorem boundNames_renumber (c : NodeId) : boundNames t' (ρ c) = boundNames t c := by
  rw [boundNames, boundNames, classAt_renumber same]
  refine (bind_map_of_agree (g := id) (fun d => ?_) (classAt t c)).trans (id_map _)
  rw [id_map]
  refine congrArg (Functor.map List.reverse) ?_
  refine (same.walk_eq (g := id) (fun path names => ?_) c []).trans (id_map _)
  rw [same.innermost?_eq]
  refine bind_map_of_agree (fun entry => ?_) (t.innermost? path)
  rw [boundName_renumber, ClassDecl.renumber]
  cases boundName d.fqn entry <;> rfl

/-! ## Occurrences -/

theorem contextOf_renumber (path : Path) : contextOf t' (path.map ρ) = contextOf t path := by
  rw [contextOf, contextOf, same.nearest_eq (decidesContext_renumber ρ)]
  refine (bind_map_of_agree (g := id) (fun found => ?_) (t.nearest decidesContext path)).trans
    (id_map _)
  cases found with
  | none => rfl
  | some place =>
      refine same.bind_node?_map (fun entry => ?_) place.1
      rw [contextBelow_renumber]
      rfl

theorem sites_renumber (settings : Settings) (c : NodeId) :
    sites t' settings (ρ c) = List.map (Prod.map id ρ) <$> sites t settings c := by
  refine same.gather_eq (fun path found => ?_) c
  cases path with
  | nil => rfl
  | cons id above =>
      refine same.bind_node?_map (fun entry => ?_) id
      rcases entry with _ | ⟨pos, form⟩
      · rfl
      · cases form with
        | classDecl d =>
            have here : (ρ id == ρ c) = (id == c) := by
              rw [Bool.eq_iff_iff, beq_iff_eq, beq_iff_eq, same.injective.eq_iff]
            exact congrArg (fun descend => Except.ok (descend, _)) here
        | literal lit =>
            have context := contextOf_renumber same (id :: above)
            rw [List.map_cons] at context
            cases isString : lit.isString with
            | false => simp [Node.renumber, Form.renumber, isString]
            | true =>
                simp only [List.map_cons, Option.map_some, Node.renumber, Form.renumber, isString,
                  if_true, context]
                cases contextOf t (id :: above) with
                | error fault => rfl
                | ok context => cases counts : context.counts settings <;> simp [counts]
        | _ => rfl

theorem repeated_renumber (settings : Settings) (c : NodeId) :
    repeated t' settings (ρ c) =
      List.map (Occurrences.renumber ρ) <$> repeated t settings c := by
  rw [repeated, repeated, sites_renumber same]
  refine bind_map_of_agree (fun found => congrArg Except.ok ?_) (sites t settings c)
  rw [groupByValue_renumber, List.filter_map]
  simp [Function.comp_def, Occurrences.renumber]

theorem references_renumber (c : NodeId) (fqn name : Text) :
    references t' (ρ c) fqn name = List.map ρ <$> references t c fqn name := by
  refine same.gather_eq (fun path found => ?_) c
  cases path with
  | nil => rfl
  | cons id above =>
      refine same.bind_node?_map (fun entry => ?_) id
      rw [refersTo_renumber]
      cases refersTo fqn name entry <;> rfl

/-! ## Plans -/

theorem planGroup_renumber (settings : Settings) (existing : List Constant) (scope : Scope)
    (o : Occurrences) :
    planGroup settings (existing.map (Constant.renumber ρ)) scope (o.renumber ρ) =
      (planGroup settings existing scope o).map (Group.renumber ρ) := by
  have found : (existing.map (Constant.renumber ρ)).find? (·.value == (o.renumber ρ).value) =
      (existing.find? (·.value == o.value)).map (Constant.renumber ρ) := List.find?_map
  rw [planGroup, planGroup, found]
  cases existing.find? (·.value == o.value) with
  | none =>
      simp only [Option.map_none]
      change (nameForValue settings scope o.value >>= _) = _
      cases nameForValue settings scope o.value with
      | none => rfl
      | some name => simp [Group.renumber, Occurrences.renumber, same.zero]
  | some c =>
      simp only [Option.map_some]
      change (nameForConstant settings scope c >>= _) = _
      cases nameForConstant settings scope c with
      | none => rfl
      | some name => rfl

theorem planGroups_renumber (settings : Settings) (existing : List Constant)
    (os : List Occurrences) : ∀ scope,
    planGroups settings (existing.map (Constant.renumber ρ)) scope
        (os.map (Occurrences.renumber ρ)) =
      Prod.map (List.map (Group.renumber ρ)) (List.map (Skip.renumber ρ))
        (planGroups settings existing scope os) := by
  induction os with
  | nil => exact fun _ => rfl
  | cons o rest ih =>
      intro scope
      rw [List.map_cons, planGroups, planGroups, planGroup_renumber same]
      cases planGroup settings existing scope o with
      | none =>
          simp only [Option.map_none, ih]
          rfl
      | some g =>
          simp only [Option.map_some, ih, Group.renumber]
          rfl

/-- A class is planned alike under its other number. -/
theorem planClass_renumber {settings : Settings} {c : NodeId} {a : Except Unresolved Plan}
    (planned : planClass t settings c = .ok a) :
    planClass t' settings (ρ c) = .ok (a.map (Plan.renumber ρ)) := by
  obtain ⟨entry, looked, planned⟩ := bind_eq_ok planned
  rw [planClass, same.classAt?_eq, looked]
  rcases entry with _ | ⟨pos, d⟩
  · contradiction
  · change (if d.fqn = "" then _ else _) = _
    change (if d.fqn = "" then _ else _) = _ at planned
    split at planned
    · rename_i unresolved
      rw [if_pos unresolved, ← Except.ok.inj planned]
      rfl
    · rename_i resolved
      rw [if_neg resolved, repeated_renumber same, constants_renumber same,
        boundNames_renumber same]
      obtain ⟨found, searched, planned⟩ := bind_eq_ok planned
      rw [searched]
      change (if (found.map (Occurrences.renumber ρ)).isEmpty then _ else _) = _
      rw [List.isEmpty_map]
      split at planned
      · rename_i nothing
        rw [if_pos nothing, ← Except.ok.inj planned]
        rfl
      · rename_i something
        obtain ⟨existing, declared, planned⟩ := bind_eq_ok planned
        obtain ⟨bound, names, planned⟩ := bind_eq_ok planned
        rw [if_neg something, declared, names, ← Except.ok.inj planned]
        simp only [Functor.map, Except.map, ok_bind, planGroups_renumber same]
        rfl

theorem renamingOf_renumber (p : Plan) (g : Group) :
    renamingOf t' (p.renumber ρ) (g.renumber ρ) =
      List.map (Renaming.renumber ρ) <$> renamingOf t p g := by
  obtain ⟨value, sites, action, name, oldName, var⟩ := g
  cases action with
  | rename =>
      change (references t' (ρ p.classId) p.fqn oldName >>= _) = _
      rw [references_renumber same]
      change _ = List.map (Renaming.renumber ρ) <$> (references t p.classId p.fqn oldName >>= _)
      cases references t p.classId p.fqn oldName <;> rfl
  | _ => rfl

end Read

/-! ## Edits -/

/-- A fold over renamed items keeps up with another one if each of its steps does. -/
theorem foldlM_of_simulates {ε σ τ α β : Type} {R : σ → τ → Prop} {run : σ → α → Except ε σ}
    {run' : τ → β → Except ε τ} {h : α → β} {xs : List α} {s r : σ} {s' : τ}
    (ran : xs.foldlM run s = .ok r) (related : R s s')
    (simulates : ∀ s s' x r, R s s' → run s x = .ok r → ∃ r', run' s' (h x) = .ok r' ∧ R r r') :
    ∃ r', (xs.map h).foldlM run' s' = .ok r' ∧ R r r' := by
  induction xs generalizing s s' with
  | nil =>
      rw [← Except.ok.inj ran]
      exact ⟨s', rfl, related⟩
  | cons x rest ih =>
      rw [List.foldlM_cons] at ran
      obtain ⟨next, first, later⟩ := bind_eq_ok ran
      obtain ⟨next', first', related'⟩ := simulates s s' x next related first
      obtain ⟨r', later', last⟩ := ih later related'
      exact ⟨r', by rw [List.map_cons, List.foldlM_cons, first', ok_bind, later'], last⟩

section Write
variable {t t' u : Tree} {ρ : NodeId → NodeId}

theorem set_renumber (same : t.Renumbers ρ t') {id : NodeId} {n m : Node} (held : t.Holds id n)
    (written : t.set id (some m) = .ok u) :
    ∃ u', t'.set (ρ id) (some (m.renumber ρ)) = .ok u' ∧ u.Renumbers ρ u' := by
  obtain ⟨v, u', run, run', same'⟩ := same.set held m
  rw [run] at written
  exact ⟨u', run', Except.ok.inj written ▸ same'⟩

theorem renamedForm_renumber (name : Text) (form : Form) :
    renamedForm name (form.renumber ρ) = (renamedForm name form).renumber ρ := by
  cases form <;> rfl

theorem renameReference_renumber {name : Text} {id : NodeId} (same : t.Renumbers ρ t')
    (renamed : renameReference name t id = .ok u) :
    ∃ u', renameReference name t' (ρ id) = .ok u' ∧ u.Renumbers ρ u' := by
  obtain ⟨entry, looked, renamed⟩ := bind_eq_ok renamed
  rw [renameReference, same.node?_eq, looked]
  cases entry with
  | none =>
      rw [← Except.ok.inj renamed]
      exact ⟨t', rfl, same⟩
  | some n =>
      obtain ⟨u', written, same'⟩ := set_renumber same looked renamed
      refine ⟨u', ?_, same'⟩
      rw [← written]
      change t'.set (ρ id) (some { n with form := renamedForm name (n.form.renumber ρ) }) = _
      rw [renamedForm_renumber]
      rfl

theorem renameVar_renumber {name : Text} {id : NodeId} (same : t.Renumbers ρ t')
    (renamed : renameVar t id name = .ok u) :
    ∃ u', renameVar t' (ρ id) name = .ok u' ∧ u.Renumbers ρ u' := by
  obtain ⟨entry, looked, renamed⟩ := bind_eq_ok renamed
  rw [renameVar, same.node?_eq, looked]
  rcases entry with _ | ⟨pos, form⟩
  · contradiction
  · cases form with
    | namedVar old init => exact set_renumber same looked renamed
    | _ => contradiction

theorem carryOutRenaming_renumber {r : Renaming} (same : t.Renumbers ρ t')
    (renamed : carryOutRenaming t r = .ok u) :
    ∃ u', carryOutRenaming t' (r.renumber ρ) = .ok u' ∧ u.Renumbers ρ u' := by
  obtain ⟨v, declared, renamed⟩ := bind_eq_ok renamed
  obtain ⟨v', declared', same'⟩ := renameVar_renumber same declared
  obtain ⟨u', renamed', last⟩ := foldlM_of_simulates (R := fun t t' => t.Renumbers ρ t') renamed
    same' fun _ _ _ _ => renameReference_renumber
  refine ⟨u', ?_, last⟩
  change (renameVar t' (ρ r.var) r.name >>= _) = _
  rw [declared', ok_bind]
  exact renamed'

theorem literalAt_renumber (same : t.Renumbers ρ t') (id : NodeId) :
    literalAt t' (ρ id) = literalAt t id := by
  refine same.bind_node?_eq (fun entry => ?_) id
  rcases entry with _ | ⟨pos, form⟩
  · rfl
  · cases form <;> rfl

theorem declareConstant_renumber (same : t.Renumbers ρ t') (name : Text) (lit : Literal) :
    (declareConstant t name lit).1.Renumbers ρ (declareConstant t' name lit).1 ∧
      (declareConstant t' name lit).2 = ρ (declareConstant t name lit).2 := by
  obtain ⟨first, init⟩ := same.pushForm (.literal lit)
  rw [Form.renumber] at first init
  obtain ⟨second, var⟩ := first.pushForm (.namedVar name (t.pushForm (.literal lit)).2)
  rw [Form.renumber, ← init] at second var
  simp only [declareConstant]
  rw [var]
  exact second.pushForm (.varDecl _)

def Alike (ρ : NodeId → NodeId) (state state' : Tree × Text) : Prop :=
  state.1.Renumbers ρ state'.1 ∧ state'.2 = state.2

theorem replaceSite_renumber {fqn name : Text} {id : NodeId} {state state' last : Tree × Text}
    (alike : Alike ρ state state') (replaced : replaceSite fqn name state id = .ok last) :
    ∃ last', replaceSite fqn name state' (ρ id) = .ok last' ∧ Alike ρ last last' := by
  obtain ⟨t, type⟩ := state
  obtain ⟨t', type'⟩ := state'
  obtain ⟨same, rfl⟩ := alike
  obtain ⟨⟨pos, lit⟩, found, replaced⟩ := bind_eq_ok replaced
  obtain ⟨u, written, made⟩ := bind_eq_ok replaced
  obtain ⟨u', written', same'⟩ := set_renumber same (holds_of_literalAt found) written
  rw [← Except.ok.inj made]
  refine ⟨(u', _), ?_, same', rfl⟩
  change (literalAt t' (ρ id) >>= _) = _
  rw [literalAt_renumber same, found, ok_bind]
  change (t'.set (ρ id) _ >>= _) = _
  exact congrArg (· >>= _) written'

theorem firstLiteral_renumber (same : t.Renumbers ρ t') (g : Group) :
    firstLiteral t' (g.renumber ρ) = firstLiteral t g := by
  obtain ⟨value, sites, action, name, oldName, var⟩ := g
  cases sites with
  | nil => rfl
  | cons id rest =>
      change (literalAt t' (ρ id) >>= _) = (literalAt t id >>= _)
      rw [literalAt_renumber same]

theorem replaceSites_renumber {fqn name : Text} {ids : List NodeId} {type : Text}
    {last : Tree × Text} (same : t.Renumbers ρ t')
    (replaced : ids.foldlM (replaceSite fqn name) (t, type) = .ok last) :
    ∃ last', (ids.map ρ).foldlM (replaceSite fqn name) (t', type) = .ok last' ∧
      last.1.Renumbers ρ last'.1 := by
  have start : Alike ρ (t, type) (t', type) := ⟨same, rfl⟩
  obtain ⟨last', replaced', same', _⟩ :=
    foldlM_of_simulates replaced start fun _ _ _ _ => replaceSite_renumber
  exact ⟨last', replaced', same'⟩

theorem carryOutGroup_renumber {fqn : Text} {g : Group} {decls : List NodeId}
    (same : t.Renumbers ρ t') (carried : carryOutGroup fqn t g = .ok (u, decls)) :
    ∃ u', carryOutGroup fqn t' (g.renumber ρ) = .ok (u', decls.map ρ) ∧ u.Renumbers ρ u' := by
  have first := firstLiteral_renumber same g
  obtain ⟨value, sites, action, name, oldName, var⟩ := g
  cases action with
  | insert =>
      obtain ⟨lit, found, carried⟩ := bind_eq_ok carried
      have declared := declareConstant_renumber same name lit
      simp only [carryOutGroup, first, found, ok_bind]
      simp only [Group.renumber]
      revert carried declared
      generalize declareConstant t name lit = made
      generalize declareConstant t' name lit = made'
      obtain ⟨v, decl⟩ := made
      obtain ⟨v', decl'⟩ := made'
      rintro carried ⟨declared, rfl⟩
      obtain ⟨last, replaced, carried⟩ := bind_eq_ok carried
      obtain ⟨last', replaced', same'⟩ := replaceSites_renumber declared replaced
      obtain ⟨rfl, rfl⟩ := Prod.mk.inj (Except.ok.inj carried)
      refine ⟨last'.1, ?_, same'⟩
      change ((sites.map ρ).foldlM (replaceSite fqn name) (v', lit.type) >>= _) = _
      rw [replaced']
      rfl
  | _ =>
      obtain ⟨last, replaced, carried⟩ := bind_eq_ok carried
      obtain ⟨last', replaced', same'⟩ := replaceSites_renumber same replaced
      obtain ⟨rfl, rfl⟩ := Prod.mk.inj (Except.ok.inj carried)
      refine ⟨last'.1, ?_, same'⟩
      change ((sites.map ρ).foldlM (replaceSite fqn name) _ >>= _) = _
      rw [replaced']
      rfl

theorem carryOutGroups_renumber {fqn : Text} (groups : List Group) :
    ∀ {t t' u : Tree} {decls : List NodeId}, t.Renumbers ρ t' →
      carryOutGroups fqn t groups = .ok (u, decls) →
      ∃ u', carryOutGroups fqn t' (groups.map (Group.renumber ρ)) = .ok (u', decls.map ρ) ∧
        u.Renumbers ρ u' := by
  induction groups with
  | nil =>
      intro t t' u decls same done
      obtain ⟨rfl, rfl⟩ := Prod.mk.inj (Except.ok.inj done)
      exact ⟨t', rfl, same⟩
  | cons g rest ih =>
      intro t t' u decls same carried
      obtain ⟨⟨v, first⟩, here, carried⟩ := bind_eq_ok carried
      obtain ⟨⟨w, more⟩, later, carried⟩ := bind_eq_ok carried
      obtain ⟨rfl, rfl⟩ := Prod.mk.inj (Except.ok.inj carried)
      obtain ⟨v', here', same'⟩ := carryOutGroup_renumber same here
      obtain ⟨w', later', last⟩ := ih same' later
      refine ⟨w', ?_, last⟩
      rw [List.map_cons, carryOutGroups, here', ok_bind]
      change (carryOutGroups fqn v' _ >>= _) = _
      rw [later', List.map_append]
      rfl

theorem prependMembers_renumber {c : NodeId} {decls : List NodeId} (same : t.Renumbers ρ t')
    (prepended : prependMembers t c decls = .ok u) :
    ∃ u', prependMembers t' (ρ c) (decls.map ρ) = .ok u' ∧ u.Renumbers ρ u' := by
  obtain ⟨entry, looked, prepended⟩ := bind_eq_ok prepended
  rw [prependMembers, same.node?_eq, looked]
  rcases entry with _ | ⟨pos, form⟩
  · contradiction
  · cases form with
    | classDecl d =>
        obtain ⟨u', written, same'⟩ := set_renumber same looked prepended
        refine ⟨u', ?_, same'⟩
        rw [← written, Node.renumber, Form.renumber, ClassDecl.renumber, List.map_append]
        rfl
    | _ => contradiction

theorem statsOf_renumber (groups : List Group) (renamings : List Renaming) :
    statsOf (groups.map (Group.renumber ρ)) (renamings.map (Renaming.renumber ρ)) =
      statsOf groups renamings := by
  simp [statsOf, countAction, List.filter_map, Function.comp_def, Group.renumber,
    Renaming.renumber]

/-- A plan is carried out alike under other numbers. -/
theorem applyPlan_renumber {p : Plan} {stats : Stats} (same : t.Renumbers ρ t')
    (applied : applyPlan t p = .ok (u, stats)) :
    ∃ u', applyPlan t' (p.renumber ρ) = .ok (u', stats) ∧ u.Renumbers ρ u' := by
  have nothing : (p.renumber ρ).isEmpty = p.isEmpty := List.isEmpty_map
  rw [applyPlan] at applied
  rw [applyPlan, nothing]
  split at applied
  · rename_i empty
    obtain ⟨rfl, rfl⟩ := Prod.mk.inj (Except.ok.inj applied)
    exact ⟨t', if_pos empty, same⟩
  · rename_i nonempty
    rw [if_neg nonempty]
    obtain ⟨d, found, applied⟩ := bind_eq_ok applied
    obtain ⟨lists, located, applied⟩ := bind_eq_ok applied
    obtain ⟨v, renamed, applied⟩ := bind_eq_ok applied
    obtain ⟨⟨w, decls⟩, carried, applied⟩ := bind_eq_ok applied
    obtain ⟨v', renamed', same₁⟩ := foldlM_of_simulates (R := fun t t' => t.Renumbers ρ t')
      renamed same fun _ _ _ _ => carryOutRenaming_renumber
    obtain ⟨w', carried', same₂⟩ := carryOutGroups_renumber p.groups same₁ carried
    have located' := mapM_map_of_agree (renamingOf_renumber same p) p.groups
    rw [located] at located'
    have found' := classAt_renumber same p.classId
    rw [found] at found'
    simp only [Plan.renumber] at located' ⊢
    rw [found']
    simp only [Functor.map, Except.map, ok_bind] at located' ⊢
    rw [located', ok_bind, ← List.map_flatten, renamed', ok_bind, carried', ok_bind]
    simp only [List.isEmpty_map, statsOf_renumber]
    simp only at applied
    split at applied
    · rename_i nothingNew
      obtain ⟨rfl, rfl⟩ := Prod.mk.inj (Except.ok.inj applied)
      exact ⟨w', by rw [if_pos nothingNew]; rfl, same₂⟩
    · rename_i more
      obtain ⟨x, prepended, applied⟩ := bind_eq_ok applied
      obtain ⟨rfl, rfl⟩ := Prod.mk.inj (Except.ok.inj applied)
      obtain ⟨x', prepended', same₃⟩ := prependMembers_renumber same₂ prepended
      refine ⟨x', ?_, same₃⟩
      rw [if_neg more, prepended']
      rfl

end Write

/-! ## Runs -/

/-- Two runs that leave the same up to numbers. -/
structure UnitRun.Renumbers (r : UnitRun) (ρ : NodeId → NodeId) (r' : UnitRun) : Prop where
  tree : r.tree.Renumbers ρ r'.tree
  plans_eq : r'.plans = r.plans.map (Plan.renumber ρ)
  stats_eq : r'.stats = r.stats
  errors_eq : r'.errors = r.errors

section Run
variable {t t' : Tree} {ρ : NodeId → NodeId} {settings : Settings}

theorem runClass_error_renumber {c : NodeId} {e : Unresolved} (same : t.Renumbers ρ t')
    (ran : runClass settings t c = .ok (.error e)) :
    runClass settings t' (ρ c) = .ok (.error e) := by
  obtain ⟨planned, plan, ran⟩ := bind_eq_ok ran
  rw [runClass, planClass_renumber same plan]
  cases planned with
  | error e' => exact ran
  | ok p =>
      obtain ⟨applied, _, absurd⟩ := bind_eq_ok ran
      cases Except.ok.inj absurd

theorem runClass_ok_renumber {c : NodeId} {r : ClassRun} (same : t.Renumbers ρ t')
    (ran : runClass settings t c = .ok (.ok r)) :
    ∃ r', runClass settings t' (ρ c) = .ok (.ok r') ∧ r.tree.Renumbers ρ r'.tree ∧
      r'.plan = r.plan.renumber ρ ∧ r'.stats = r.stats := by
  obtain ⟨planned, plan, ran⟩ := bind_eq_ok ran
  have plan' := planClass_renumber same plan
  cases planned with
  | error e => cases Except.ok.inj ran
  | ok p =>
      obtain ⟨⟨u, stats⟩, applied, ran⟩ := bind_eq_ok ran
      obtain ⟨u', applied', same'⟩ := applyPlan_renumber same applied
      obtain rfl := Except.ok.inj (Except.ok.inj ran)
      refine ⟨⟨u', p.renumber ρ, stats, Report.eventsOf (p.renumber ρ)⟩, ?_, same', rfl, rfl⟩
      rw [runClass, plan']
      change (applyPlan t' (p.renumber ρ) >>= _) = _
      rw [applied']
      rfl

theorem UnitRun.runClass_renumber {file : Text} {r r' next : UnitRun} {c : NodeId}
    (same : r.Renumbers ρ r') (ran : UnitRun.runClass settings file r c = .ok next) :
    ∃ next', UnitRun.runClass settings file r' (ρ c) = .ok next' ∧ next.Renumbers ρ next' := by
  obtain ⟨a, first, ran⟩ := bind_eq_ok ran
  cases a with
  | error e =>
      have first' := runClass_error_renumber same.tree first
      rw [UnitRun.runClass, first', ok_bind, ← Except.ok.inj ran]
      refine ⟨_, rfl, same.tree, same.plans_eq, same.stats_eq, ?_⟩
      exact congrArg (fun errors => errors.reportIn file (.unresolved e)) same.errors_eq
  | ok cr =>
      obtain ⟨cr', first', tree, plan, stats⟩ := runClass_ok_renumber same.tree first
      rw [UnitRun.runClass, first', ok_bind, ← Except.ok.inj ran]
      refine ⟨_, rfl, tree, ?_, ?_, same.errors_eq⟩
      · simp [same.plans_eq, plan]
      · simp [same.stats_eq, stats]

theorem unitName_renumber (same : t.Renumbers ρ t') : unitName t' = unitName t := by
  rw [unitName, unitName, same.unit?_eq]
  refine (bind_map_of_agree (g := id) (fun entry => ?_) t.unit?).trans (id_map _)
  cases entry <;> rfl

/-- A run does not depend on the numbers of nodes. -/
theorem runUnit_renumber {r : UnitRun} (same : t.Renumbers ρ t')
    (ran : runUnit settings t = .ok r) :
    ∃ r', runUnit settings t' = .ok r' ∧ r.Renumbers ρ r' := by
  obtain ⟨uses, mentioned, ran⟩ := bind_eq_ok ran
  rw [runUnit, same.root_eq, same.usesType_eq, mentioned]
  cases uses with
  | false =>
      rw [← Except.ok.inj ran]
      exact ⟨_, rfl, same, rfl, rfl, rfl⟩
  | true =>
      obtain ⟨file, named, ran⟩ := bind_eq_ok ran
      obtain ⟨all, listed, ran⟩ := bind_eq_ok ran
      have start : UnitRun.Renumbers { tree := t } ρ { tree := t' } := ⟨same, rfl, rfl, rfl⟩
      obtain ⟨r', ran', last⟩ := foldlM_of_simulates (R := fun r r' => r.Renumbers ρ r') ran start
        fun _ _ _ _ => UnitRun.runClass_renumber
      refine ⟨r', ?_, last⟩
      simp only [ok_bind, if_true, unitName_renumber same, named, same.classes_eq, listed]
      exact ran'

end Run

end LiteralHoist.Consolidate
