import LiteralHoist.Report.Diagnostic
import LiteralHoist.Report.Event

/-!
# Runs

A run on a class plans it and carries out the plan.  A run on a unit does so for every class,
enclosing classes before the nested ones; it passes over the classes whose type was not resolved
and reports them together.  A unit that never mentions the string type is left alone.
-/

set_option autoImplicit false

namespace LiteralHoist.Consolidate

open LiteralHoist.Source LiteralHoist.Report

structure ClassRun where
  tree : Tree
  plan : Plan
  stats : Stats
  log : List Event
  deriving DecidableEq, Repr

def runClass (settings : Settings) (t : Tree) (classId : NodeId) :
    Except Fault (Except Unresolved ClassRun) := do
  match ← planClass t settings classId with
  | .error e => return .error e
  | .ok plan =>
    let (tree, stats) ← applyPlan t plan
    return .ok { tree, plan, stats, log := eventsOf plan }

structure UnitRun where
  tree : Tree
  plans : List Plan := []
  stats : Stats := {}
  log : List Event := []
  errors : Diagnostics := {}
  deriving DecidableEq, Repr

def UnitRun.runClass (settings : Settings) (file : Text) (r : UnitRun) (classId : NodeId) :
    Except Fault UnitRun := do
  match ← Consolidate.runClass settings r.tree classId with
  | .error e =>
    return { r with
      log := r.log ++ [.skippedClass e]
      errors := r.errors.reportIn file (.unresolved e) }
  | .ok c =>
    return { r with
      tree := c.tree
      plans := r.plans ++ [c.plan]
      stats := r.stats.add c.stats
      log := r.log ++ c.log }

def unitName (t : Tree) : Except Fault Text := do
  match ← t.unit? with
  | some (_, u) => return u.name
  | none => return ""

def runUnit (settings : Settings) (t : Tree) : Except Fault UnitRun := do
  if ← t.usesType isStringType t.root then
    let file ← unitName t
    (← t.classes t.root).foldlM (UnitRun.runClass settings file) { tree := t }
  else
    return { tree := t }

def runUnits (settings : Settings) (trees : List Tree) : Except Fault (List UnitRun) :=
  trees.mapM (runUnit settings)

/-- Runs a number of times on every unit, each time on the trees that the time before left. -/
def runPasses (settings : Settings) : Nat → List Tree → Except Fault (List (List UnitRun))
  | 0, _ => .ok []
  | passes + 1, trees => do
    let first ← runUnits settings trees
    return first :: (← runPasses settings passes (first.map UnitRun.tree))

end LiteralHoist.Consolidate
