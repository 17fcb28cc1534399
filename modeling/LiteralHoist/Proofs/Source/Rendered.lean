import LiteralHoist.Proofs.Source.Conforming
import LiteralHoist.Proofs.Source.Template
import LiteralHoist.Source.Render

/-!
# Rendering

A conforming unit has a source text, and it is given by a template: every place where an expression
is shown holds one, every place where a node of one form is needed holds it, the bounds on the depth
are never reached, and each leaf is shown once, in the order of a walk.  A statement uses up two
steps of its bound at most before the statements inside it are shown, since a conditional statement
and its branches take one each.
-/

set_option autoImplicit false

namespace LiteralHoist.Source

attribute [local simp] ok_bind pure_eq_ok Piece.fill Text.append_assoc Text.append_empty
  Text.empty_append fill_separated leavesIn_separated fill_flatMap leavesIn_flatMap fill_flatten
  leavesIn_flatten commaList Form.places

variable {t : Tree} {depth : Nat}

/-! ## Expressions -/

theorem expressions_subset : Kind.expressions ⊆ Kind.arguments := by
  simp [Kind.arguments]

theorem exprText_of_leaf {id : NodeId} {n : Node} {s : Text} (held : t.Holds id n)
    (leaf : n.leafText? = some s) : t.exprText (depth + 1) id = .ok s := by
  obtain ⟨pos, form⟩ := n
  cases form with
  | literal lit | ident name type field =>
      obtain rfl := Option.some.inj leaf
      simp [Tree.exprText, held.form?_eq]
  | _ => contradiction

theorem displays_exprText : ∀ {depth : Nat} {id : NodeId}, t.Stands depth Kind.arguments id →
    Displays t (fun t' => t'.exprText depth id) [id] := by
  intro depth
  induction depth with
  | zero => exact fun stands => stands.elim
  | succ depth ih =>
      rintro id ⟨⟨pos, form⟩, held, kind, places⟩
      have fills : t.Fills depth form := places
      have one : ∀ x, .must Kind.expressions x ∈ form.demands →
          Displays t (fun t' => t'.exprText depth x) [x] :=
        fun _ demanded => ih ((fills.must demanded).allow expressions_subset)
      have many : ∀ (args : List NodeId) (allowed : List Kind), allowed ⊆ Kind.arguments →
          args.map (.must allowed) ⊆ form.demands →
          DisplaysEach t (fun t' => t'.exprText depth) args :=
        fun args _ subset demanded => displaysEach
          fun x member => ih ((fills.list demanded x member).allow subset)
      cases form with
      | literal lit | ident name type field =>
          exact .leaf held rfl fun _ _ _ => exprText_of_leaf
      | fieldAccess x name type field =>
          obtain ⟨ps, order, run⟩ := one x (by simp [Form.demands])
          refine .inner held rfl (between "" ps ("." ++ name)) (by simpa using order)
            fun t' varies here => ?_
          simp [Tree.exprText, here.form?_eq, run t' varies]
      | call recv name args type =>
          obtain ⟨list, orders, runArgs⟩ := many args _ expressions_subset (by simp [Form.demands])
          have receiver : recv = 0 ∨ t.Stands depth Kind.expressions recv :=
            fills.may (by simp [Form.demands])
          rcases receiver with rfl | present
          · refine .inner held rfl (between (name ++ "(") (separated ", " list) ")")
              (by simpa using Tree.LeafOrder.absent orders) fun t' varies here => ?_
            simp [Tree.exprText, here.form?_eq, runArgs t' varies]
          · obtain ⟨ps, order, run⟩ := ih (present.allow expressions_subset)
            refine .inner held rfl (ps ++ between ("." ++ name ++ "(") (separated ", " list) ")")
              (by simpa using order.append orders) fun t' varies here => ?_
            simp [Tree.exprText, here.form?_eq, present.ne_zero, run t' varies, runArgs t' varies]
      | new className args =>
          obtain ⟨list, orders, runArgs⟩ := many args _ expressions_subset (by simp [Form.demands])
          refine .inner held rfl (between ("new " ++ className ++ "(") (separated ", " list) ")")
            (by simpa using orders) fun t' varies here => ?_
          simp [Tree.exprText, here.form?_eq, runArgs t' varies]
      | parens x =>
          obtain ⟨ps, order, run⟩ := one x (by simp [Form.demands])
          refine .inner held rfl (between "(" ps ")") (by simpa using order)
            fun t' varies here => ?_
          simp [Tree.exprText, here.form?_eq, run t' varies]
      | binary op x y type | assign op x y =>
          obtain ⟨left, orderLeft, runLeft⟩ := one x (by simp [Form.demands])
          obtain ⟨right, orderRight, runRight⟩ := one y (by simp [Form.demands])
          refine .inner held rfl (left ++ between (" " ++ op ++ " ") right "")
            (by simpa using orderLeft.append orderRight) fun t' varies here => ?_
          simp [Tree.exprText, here.form?_eq, runLeft t' varies, runRight t' varies]
      | unary op x =>
          obtain ⟨ps, order, run⟩ := one x (by simp [Form.demands])
          refine .inner held rfl (between op ps "") (by simpa using order)
            fun t' varies here => ?_
          simp [Tree.exprText, here.form?_eq, run t' varies]
      | annot name args =>
          obtain ⟨list, orders, runArgs⟩ :=
            many args _ (List.Subset.refl _) (by simp [Form.demands])
          by_cases empty : args = []
          · subst empty
            refine .inner held rfl [.text ("@" ++ name)] .nil fun t' varies here => ?_
            simp [Tree.exprText, here.form?_eq]
          · refine .inner held rfl (between ("@" ++ name ++ "(") (separated ", " list) ")")
              (by simpa using orders) fun t' varies here => ?_
            simp [Tree.exprText, here.form?_eq, empty, runArgs t' varies]
      | _ => simp [Node.kind, Form.kind, Kind.arguments, Kind.expressions] at kind

theorem displays_expr (shallow : depth ≤ t.size) {allowed : List Kind}
    (subset : allowed ⊆ Kind.arguments) {id : NodeId} (stands : t.Stands depth allowed id) :
    Displays t (fun t' => t'.expr id) [id] := by
  obtain ⟨ps, order, run⟩ :=
    displays_exprText ((stands.allow subset).mono (Nat.le_succ_of_le shallow))
  refine ⟨ps, order, fun t' varies => ?_⟩
  change t'.exprText (t'.size + 1) id = _
  rw [varies.size_eq]
  exact run t' varies

/-! ## Declarations -/

theorem displays_annotations (shallow : depth ≤ t.size) {ids : List NodeId}
    (stand : ∀ x ∈ ids, t.Stands depth [.annot] x) : DisplaysEach t Tree.expr ids :=
  displaysEach fun x member => displays_expr shallow (by simp [Kind.arguments]) (stand x member)

theorem displays_annotationLines (shallow : depth ≤ t.size) (level : Nat) {ids : List NodeId}
    (stand : ∀ x ∈ ids, t.Stands depth [.annot] x) :
    Displays t (fun t' => t'.annotationLines level ids) ids := by
  obtain ⟨list, orders, run⟩ := displays_annotations shallow stand
  refine ⟨list.flatMap fun ps => between (indentation level) ps "\n",
    by simpa using orders, fun t' varies => ?_⟩
  simp [Tree.annotationLines, run t' varies, Function.comp_def]

theorem displays_initializedName (shallow : depth ≤ t.size) (name : Text) {init : NodeId}
    (value : init = 0 ∨ t.Stands depth Kind.expressions init) :
    Displays t (fun t' => t'.initializedName name init) [init] := by
  rcases value with rfl | present
  · exact ⟨[.text name], .absent .nil, fun t' _ => by simp [Tree.initializedName]⟩
  · obtain ⟨ps, order, run⟩ := displays_expr shallow expressions_subset present
    refine ⟨between (name ++ " = ") ps "", by simpa using order, fun t' varies => ?_⟩
    simp [Tree.initializedName, present.ne_zero, run t' varies]

theorem displays_namedVariable (shallow : depth ≤ t.size) {id : NodeId}
    (stands : t.Stands depth [.namedVar] id) :
    Displays t (fun t' => t'.namedVariable id) [id] := by
  obtain ⟨less, pos, form, rfl, held, kind, fills⟩ := stands.inv
  cases form with
  | namedVar name init =>
      have value : init = 0 ∨ t.Stands less Kind.expressions init :=
        fills.may (by simp [Form.demands])
      obtain ⟨ps, order, run⟩ := displays_initializedName (by omega) name value
      refine .inner held rfl ps order fun t' varies here => ?_
      simp [Tree.namedVariable, here.form?_eq, run t' varies]
  | _ => simp [Form.kind] at kind

theorem displays_declaration (shallow : depth ≤ t.size) {d : VarDecl}
    (fills : t.Fills depth (.varDecl d)) : Displays t (fun t' => t'.declaration d) d.vars := by
  have vars : ∀ v ∈ d.vars, t.Stands depth [.namedVar] v := fills.list (by simp [Form.demands])
  obtain ⟨list, orders, run⟩ : DisplaysEach t Tree.namedVariable d.vars :=
    displaysEach fun v member => displays_namedVariable shallow (vars v member)
  refine ⟨between (leadingMods d.mods ++ d.type ++ " ") (separated ", " list) "",
    by simpa using orders, fun t' varies => ?_⟩
  simp [Tree.declaration, run t' varies]

theorem displays_parameter (shallow : depth ≤ t.size) {id : NodeId}
    (stands : t.Stands depth [.varDecl] id) : Displays t (fun t' => t'.parameter id) [id] := by
  obtain ⟨less, pos, form, rfl, held, kind, fills⟩ := stands.inv
  have shallow' : less ≤ t.size := by omega
  cases form with
  | varDecl d =>
      have annotations : ∀ x ∈ d.annotations, t.Stands less [.annot] x :=
        fills.list (by simp [Form.demands])
      obtain ⟨list, orders, runList⟩ := displays_annotations shallow' annotations
      obtain ⟨ps, order, run⟩ := displays_declaration shallow' fills
      refine .inner held rfl ((list.flatMap fun ps => between "" ps " ") ++ ps)
        (by simpa using orders.append order) fun t' varies here => ?_
      simp [Tree.parameter, here.form?_eq, runList t' varies, run t' varies, Function.comp_def]
  | _ => simp [Form.kind] at kind

/-! ## Statements -/

def Kind.shown : List Kind :=
  .method :: Kind.statements

theorem statements_subset : Kind.statements ⊆ Kind.shown := by
  simp [Kind.shown]

theorem members_subset : Kind.members ⊆ Kind.shown := by
  simp [Kind.shown, Kind.members, Kind.statements]

theorem displays_braces {inner : Tree → Tree.StatementText} (level : Nat) {stmts : List NodeId}
    (each : ∀ x ∈ stmts, Displays t (fun t' => inner t' (level + 1) x) [x]) :
    Displays t (fun t' => Tree.braces (inner t') level stmts) stmts := by
  obtain ⟨list, orders, run⟩ : DisplaysEach t (fun t' => inner t' (level + 1)) stmts :=
    displaysEach each
  refine ⟨between "\x7b\n" list.flatten (indentation level ++ "\x7d"), by simpa using orders,
    fun t' varies => ?_⟩
  simp [Tree.braces, run t' varies]

/-- Statements are shown by templates up to a depth. -/
def Shows (t : Tree) (inner : Tree → Tree.StatementText) (depth : Nat) : Prop :=
  ∀ level id, t.Stands depth Kind.shown id → Displays t (fun t' => inner t' level id) [id]

theorem Shows.mono {inner : Tree → Tree.StatementText} {less : Nat} (shows : Shows t inner depth)
    (shallower : less ≤ depth) : Shows t inner less :=
  fun level id stands => shows level id (stands.mono shallower)

section Inner
variable {inner : Tree → Tree.StatementText} (shows : Shows t inner depth) (level : Nat)
include shows

theorem displays_block {stmts : List NodeId} (fills : t.Fills depth (.block stmts)) :
    Displays t (fun t' => Tree.braces (inner t') level stmts) stmts := by
  have inside : ∀ x ∈ stmts, t.Stands depth Kind.statements x :=
    fills.list (by simp [Form.demands])
  exact displays_braces level fun x member =>
    shows (level + 1) x ((inside x member).allow statements_subset)

theorem displays_bodyText {id : NodeId} (stands : t.Stands depth [.block] id) :
    Displays t (fun t' => t'.bodyText (inner t') level id) [id] := by
  obtain ⟨less, pos, form, rfl, held, kind, fills⟩ := stands.inv
  cases form with
  | block stmts =>
      obtain ⟨ps, order, run⟩ := displays_block (shows.mono (Nat.le_succ _)) level fills
      refine .inner held rfl ps order fun t' varies here => ?_
      simp [Tree.bodyText, here.form?_eq, run t' varies]
  | _ => simp [Form.kind] at kind

theorem displays_branchText {id : NodeId} (stands : t.Stands depth Kind.statements id) :
    Displays t (fun t' => t'.branchText (inner t') level id) [id] := by
  obtain ⟨alone, orderAlone, runAlone⟩ :
      Displays t (fun t' => Tree.braces (inner t') level [id]) [id] := by
    refine displays_braces level fun x member => shows (level + 1) x ?_
    rw [List.mem_singleton.mp member]
    exact stands.allow statements_subset
  obtain ⟨less, pos, form, rfl, held, kind, fills⟩ := stands.inv
  cases form with
  | block stmts =>
      obtain ⟨ps, order, run⟩ := displays_block (shows.mono (Nat.le_succ _)) level fills
      refine .inner held rfl ps order fun t' varies here => ?_
      simp [Tree.branchText, here.form?_eq, run t' varies]
  | varDecl | exprStmt | «return» | ifStmt | classDecl =>
      refine ⟨alone, orderAlone, fun t' varies => ?_⟩
      simp [Tree.branchText, (varies.keeps held rfl).form?_eq, runAlone t' varies]
  | _ => simp [Form.kind, Kind.statements] at kind

theorem displays_classText (shallow : depth ≤ t.size) {d : ClassDecl}
    (fills : t.Fills depth (.classDecl d)) :
    Displays t (fun t' => t'.classText (inner t') level d) (Form.classDecl d).places := by
  have annotations : ∀ x ∈ d.annotations, t.Stands depth [.annot] x :=
    fills.list (by simp [Form.demands])
  have members : ∀ x ∈ d.members, t.Stands depth Kind.members x :=
    fills.list (by simp [Form.demands])
  obtain ⟨lines, orderLines, runLines⟩ := displays_annotationLines shallow level annotations
  obtain ⟨body, orderBody, runBody⟩ := displays_braces level fun x member =>
    shows (level + 1) x ((members x member).allow members_subset)
  refine ⟨lines ++ between (indentation level ++ leadingMods d.mods ++ "class " ++ d.name ++ " ")
    body "\n", by simpa using orderLines.append orderBody, fun t' varies => ?_⟩
  simp [Tree.classText, runLines t' varies, runBody t' varies]

theorem displays_methodText (shallow : depth ≤ t.size) {d : MethodDecl}
    (fills : t.Fills depth (.method d)) :
    Displays t (fun t' => t'.methodText (inner t') level d) (Form.method d).places := by
  have annotations : ∀ x ∈ d.annotations, t.Stands depth [.annot] x :=
    fills.list (by simp [Form.demands])
  have params : ∀ x ∈ d.params, t.Stands depth [.varDecl] x :=
    fills.list (by simp [Form.demands])
  have body : d.body = 0 ∨ t.Stands depth [.block] d.body := fills.may (by simp [Form.demands])
  obtain ⟨lines, orderLines, runLines⟩ := displays_annotationLines shallow level annotations
  obtain ⟨list, orders, runParams⟩ : DisplaysEach t Tree.parameter d.params :=
    displaysEach fun x member => displays_parameter shallow (params x member)
  let result : Text := if d.result = "" then "" else d.result ++ " "
  let header := lines ++
    between (indentation level ++ leadingMods d.mods ++ result ++ d.name ++ "(")
      (separated ", " list) ")"
  have head := orderLines.append orders
  rcases body with absent | present
  · refine ⟨header ++ between ";" [] "\n", ?_, fun t' varies => ?_⟩
    · simpa [header, absent] using head.append (.absent .nil)
    · simp [Tree.methodText, runLines t' varies, runParams t' varies, absent, header, result]
  · obtain ⟨last, orderBody, runBody⟩ := displays_bodyText shows level present
    refine ⟨header ++ between " " last "\n", ?_, fun t' varies => ?_⟩
    · simpa [header] using head.append orderBody
    · simp [Tree.methodText, runLines t' varies, runParams t' varies, present.ne_zero,
        runBody t' varies, header, result]

/-- A conditional statement is shown if the statements in its branches are, and the conditional
statement in place of the other branch. -/
theorem displays_conditionalText {bound : Nat} (here : inner = fun t' => t'.statementText bound)
    (shallow : depth ≤ t.size) {c a b : NodeId} (fills : t.Fills depth (.ifStmt c a b))
    (chain : ∀ pos c' a' b', t.Holds b ⟨pos, .ifStmt c' a' b'⟩ →
      Displays t (fun t' => t'.conditionalText bound level c' a' b') [c', a', b']) :
    Displays t (fun t' => t'.conditionalText (bound + 1) level c a b) [c, a, b] := by
  have cond : t.Stands depth Kind.expressions c := fills.must (by simp [Form.demands])
  have taken : t.Stands depth Kind.statements a := fills.must (by simp [Form.demands])
  have other : b = 0 ∨ t.Stands depth Kind.statements b := fills.may (by simp [Form.demands])
  obtain ⟨head, orderHead, runHead⟩ := displays_expr shallow expressions_subset cond
  obtain ⟨first, orderFirst, runFirst⟩ := displays_branchText shows level taken
  have order := orderHead.append orderFirst
  subst here
  rcases other with rfl | present
  · refine ⟨between "if (" head ") " ++ first,
      by simpa using order.append (.absent .nil), fun t' varies => ?_⟩
    simp [Tree.conditionalText, runHead t' varies, runFirst t' varies]
  · obtain ⟨last, orderLast, runLast⟩ := displays_branchText shows level present
    obtain ⟨_, pos, form, _, held, kind, _⟩ := present.inv
    cases form with
    | ifStmt c' a' b' =>
        obtain ⟨rest, orderRest, runRest⟩ := chain pos c' a' b' held
        have inside : t.LeafOrder [b] (leavesIn rest) := by
          simpa using Tree.LeafOrder.inner held rfl orderRest .nil
        refine ⟨between "if (" head ") " ++ first ++ between " else " rest "",
          by simpa using order.append inside, fun t' varies => ?_⟩
        simp [Tree.conditionalText, runHead t' varies, runFirst t' varies, present.ne_zero,
          (varies.keeps held rfl).form?_eq, runRest t' varies]
    | varDecl | block | exprStmt | «return» | classDecl =>
        refine ⟨between "if (" head ") " ++ first ++ between " else " last "",
          by simpa using order.append orderLast, fun t' varies => ?_⟩
        simp [Tree.conditionalText, runHead t' varies, runFirst t' varies, present.ne_zero,
          (varies.keeps held rfl).form?_eq, runLast t' varies]
    | _ => simp [Form.kind, Kind.statements] at kind

end Inner

/-- A bound of twice the depth is enough for a statement, and of one more than twice the depth of
its parts for a conditional statement. -/
theorem displays_statementText (bound : Nat) :
    (∀ depth, depth ≤ t.size → 2 * depth ≤ bound →
        Shows t (fun t' => t'.statementText bound) depth) ∧
      ∀ depth, depth ≤ t.size → 2 * depth + 1 ≤ bound → ∀ c a b, t.Fills depth (.ifStmt c a b) →
        ∀ level, Displays t (fun t' => t'.conditionalText bound level c a b) [c, a, b] := by
  -- Both at once: a conditional statement is shown by the second with one step less, and the second
  -- shows its branches by the first.
  induction bound with
  | zero =>
      refine ⟨fun depth _ deep level id stands => ?_, fun _ _ deep => by omega⟩
      obtain ⟨less, _, _, rfl, _⟩ := stands.inv
      omega
  | succ bound ih =>
      obtain ⟨statements, conditionals⟩ := ih
      constructor
      · intro depth shallow deep level id stands
        obtain ⟨less, pos, form, rfl, held, kind, fills⟩ := stands.inv
        have shallow' : less ≤ t.size := by omega
        have inner : Shows t (fun t' => t'.statementText bound) less :=
          statements less shallow' (by omega)
        cases form with
        | block stmts =>
            obtain ⟨ps, order, run⟩ := displays_block inner level fills
            refine .inner held rfl (between (indentation level) ps "\n")
              (by simpa using order) fun t' varies here => ?_
            simp [Tree.statementText, here.form?_eq, run t' varies]
        | exprStmt x =>
            have value : t.Stands less Kind.expressions x := fills.must (by simp [Form.demands])
            obtain ⟨ps, order, run⟩ := displays_expr shallow' expressions_subset value
            refine .inner held rfl (between (indentation level) ps ";\n")
              (by simpa using order) fun t' varies here => ?_
            simp [Tree.statementText, here.form?_eq, run t' varies]
        | «return» x =>
            have value : x = 0 ∨ t.Stands less Kind.expressions x :=
              fills.may (by simp [Form.demands])
            rcases value with rfl | present
            · refine .inner held rfl [.text (indentation level ++ "return;\n")]
                (.absent .nil) fun t' varies here => ?_
              simp [Tree.statementText, here.form?_eq]
            · obtain ⟨ps, order, run⟩ := displays_expr shallow' expressions_subset present
              refine .inner held rfl (between (indentation level ++ "return ") ps ";\n")
                (by simpa using order) fun t' varies here => ?_
              simp [Tree.statementText, here.form?_eq, present.ne_zero, run t' varies]
        | varDecl d =>
            have annotations : ∀ x ∈ d.annotations, t.Stands less [.annot] x :=
              fills.list (by simp [Form.demands])
            obtain ⟨lines, orderLines, runLines⟩ :=
              displays_annotationLines shallow' level annotations
            obtain ⟨ps, order, run⟩ := displays_declaration shallow' fills
            refine .inner held rfl (lines ++ between (indentation level) ps ";\n")
              (by simpa using orderLines.append order) fun t' varies here => ?_
            simp [Tree.statementText, here.form?_eq, runLines t' varies, run t' varies]
        | ifStmt c a b =>
            obtain ⟨ps, order, run⟩ := conditionals less shallow' (by omega) c a b fills level
            refine .inner held rfl (between (indentation level) ps "\n")
              (by simpa using order) fun t' varies here => ?_
            simp [Tree.statementText, here.form?_eq, run t' varies]
        | classDecl d =>
            obtain ⟨ps, order, run⟩ := displays_classText inner level shallow' fills
            refine .inner held rfl ps order fun t' varies here => ?_
            simp [Tree.statementText, here.form?_eq, run t' varies]
        | method d =>
            obtain ⟨ps, order, run⟩ := displays_methodText inner level shallow' fills
            refine .inner held rfl ps order fun t' varies here => ?_
            simp [Tree.statementText, here.form?_eq, run t' varies]
        | _ => simp [Form.kind, Kind.shown, Kind.statements] at kind
      · intro depth shallow deep c a b fills level
        have inner : Shows t (fun t' => t'.statementText bound) depth :=
          statements depth shallow (by omega)
        refine displays_conditionalText inner level rfl shallow fills ?_
        intro pos c' a' b' held
        have other : b = 0 ∨ t.Stands depth Kind.statements b :=
          fills.may (by simp [Form.demands])
        obtain ⟨less, _, form, rfl, held', _, fills'⟩ := (other.resolve_left held.ne_zero).inv
        obtain rfl : form = .ifStmt c' a' b' := congrArg Node.form (held'.unique held)
        exact conditionals less (by omega) (by omega) c' a' b' fills' level

/-! ## Units -/

theorem displays_unitClass (shallow : depth ≤ t.size) {id : NodeId}
    (stands : t.Stands depth [.classDecl] id) : Displays t (fun t' => t'.unitClass id) [id] := by
  obtain ⟨less, pos, form, rfl, held, kind, fills⟩ := stands.inv
  cases form with
  | classDecl d =>
      have inner : Shows t (fun t' => t'.statementText (2 * t.size + 2)) less :=
        (displays_statementText _).1 less (by omega) (by omega)
      obtain ⟨ps, order, run⟩ := displays_classText inner 0 (by omega) fills
      refine .inner held rfl ps order fun t' varies here => ?_
      simp [Tree.unitClass, here.form?_eq, Tree.statement, varies.size_eq, run t' varies]
  | _ => simp [Form.kind] at kind

/-- The source text of a conforming unit is given by a template. -/
theorem displays_render (conforms : t.Conforms) {pos : Position} {d : UnitDecl}
    (held : t.Holds t.root ⟨pos, .unit d⟩) : Displays t (fun t' => t'.render t'.root) [t.root] := by
  have whole : t.Stands t.size [.unit] t.root :=
    conforms.stands held (by simp [Node.kind, Form.kind])
  obtain ⟨less, _, form, size, held', _, fills⟩ := whole.inv
  obtain rfl : form = .unit d := congrArg Node.form (held'.unique held)
  have classes : ∀ c ∈ d.classes, t.Stands less [.classDecl] c :=
    fills.list (by simp [Form.demands])
  obtain ⟨list, orders, run⟩ : DisplaysEach t Tree.unitClass d.classes :=
    displaysEach fun c member => displays_unitClass (by omega) (classes c member)
  let package : Text := if d.package = "" then "" else "package " ++ d.package ++ ";\n\n"
  let imports : Text := Text.join (d.imports.map fun name => "import " ++ name ++ ";\n")
  let gap : Text := if d.imports.isEmpty then "" else "\n"
  refine .inner held rfl (between (package ++ imports ++ gap) (separated "\n" list) "")
    (by simpa using orders) fun t' varies here => ?_
  rw [varies.root_eq]
  simp [Tree.render, here.form?_eq, Tree.unitText, run t' varies, package, imports, gap]

/-- A conforming unit has a source text. -/
theorem exists_render (conforms : t.Conforms) {pos : Position} {d : UnitDecl}
    (held : t.Holds t.root ⟨pos, .unit d⟩) : ∃ text, t.render t.root = .ok text := by
  obtain ⟨pieces, _, run⟩ := displays_render conforms held
  exact ⟨_, run t (Tree.Varies.refl t)⟩

end LiteralHoist.Source
