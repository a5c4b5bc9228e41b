import StackTree.Nesting.Sequence
import StackTree.Folding
import StackTree.Routine.Audit

/-!
# Processing routines

A routine is processed by the passes that the settings ask for, nesting before folding, and audited
after each if the settings ask for that. Routines share nothing, so several are processed one by
one.
-/

namespace StackTree

/-- Which passes run. -/
structure Settings where
  /-- Nest producers into their consumers. -/
  nest : Bool := true
  /-- Fold constants after nesting. -/
  fold : Bool := false
  /-- Audit the routine after each pass. -/
  audit : Bool := true
deriving DecidableEq, Repr, Inhabited

/-! ## Passes -/

/-- Nesting as a pass that remembers its last report. -/
structure NestingPass where
  /-- Whether a pipeline should run it. -/
  enabled : Bool
  /-- The report of the last run that succeeded. -/
  lastReport : Option NestingReport := none
deriving DecidableEq, Repr

namespace NestingPass

/-- The name of the pass. -/
def name : String := "inlining"

/-- Nests the body of the routine. -/
def run (pass : NestingPass) : Edit NestingPass := do
  return { pass with lastReport := some (← nestBody) }

end NestingPass

/-- Folding as a pass that adds its replacements up. -/
structure FoldingPass where
  /-- Whether a pipeline should run it. -/
  enabled : Bool
  /-- How many operators the runs that succeeded replaced. -/
  folded : Nat := 0
deriving DecidableEq, Repr

namespace FoldingPass

/-- The name of the pass. -/
def name : String := "constant-folding"

/-- Folds the body of the routine. -/
def run (pass : FoldingPass) : Edit FoldingPass := do
  return { pass with folded := pass.folded + (← foldBody) }

end FoldingPass

/-! ## Pipelines -/

/-- What the passes did to a routine. -/
structure RoutineReport where
  /-- The name of the routine. -/
  name : String
  /-- The report of nesting, if it ran. -/
  nesting : Option NestingReport
  /-- How many operators became constants. -/
  folded : Nat
  /-- How many nodes the routine has now. -/
  live : Nat
deriving DecidableEq, Repr

/-- Audits the routine if the settings ask for it. -/
def auditIf (settings : Settings) : Edit Unit :=
  if settings.audit then ask Routine.audit else pure ()

/-- Runs the nesting pass if it is enabled. -/
def runNesting (settings : Settings) (pass : NestingPass) : Edit NestingPass := do
  if pass.enabled then
    let pass ← pass.run
    auditIf settings
    return pass
  else
    return pass

/-- Runs the folding pass if it is enabled. -/
def runFolding (settings : Settings) (pass : FoldingPass) : Edit FoldingPass := do
  if pass.enabled then
    let pass ← pass.run
    auditIf settings
    return pass
  else
    return pass

/-- Runs every pass that the settings ask for. -/
def process (settings : Settings) : Edit RoutineReport := do
  let nesting ← runNesting settings { enabled := settings.nest }
  let folding ← runFolding settings { enabled := settings.fold }
  let r ← get
  return { name := r.name, nesting := nesting.lastReport, folded := folding.folded, live := r.live }

/-- A routine after its passes, with the report or the reason why a pass failed. -/
structure Processed where
  /-- The routine. -/
  code : Routine
  /-- The report. -/
  report : Except Fault RoutineReport

/-- Processes one routine. -/
def processRoutine (settings : Settings) (r : Routine) : Processed :=
  match process settings r with
  | .ok report code => { code := code, report := .ok report }
  | .error fault code => { code := code, report := .error fault }

/-- Processes routines that share nothing. -/
def processAll (settings : Settings) (rs : List Routine) : List Processed :=
  rs.map (processRoutine settings)

end StackTree
