import StackTree.Command.Arguments
import StackTree.Command.Files
import StackTree.Routine.Text
import StackTree.Settings

/-!
# Running a command

A command reads everything it needs, works on it and only then emits its whole output, so a failure
emits nothing. Two things come from outside: the file system, and the words in which it is told why
a text is not the document that it should be.

## Main definitions

* `Command.Reader`: how documents are read from files.
* `Command.emit`: what a command emits, and where to.
* `Command.run`: a command run on a file system.
-/

namespace StackTree

open Json (Value)

/-! ## Reports as values -/

/-- The report as a value. -/
def NestingReport.toJson (report : NestingReport) : Value :=
  .record [("entries_before", .integer report.entriesBefore),
    ("entries_after", .integer report.entriesAfter), ("consumed", .integer report.consumed),
    ("stalled", .integer report.stalled), ("finished", .bool report.finished)]

/-- The report as a value. -/
def RoutineReport.toJson (report : RoutineReport) : Value :=
  .record [("name", .string report.name),
    ("inlining", match report.nesting with
      | some nesting => nesting.toJson
      | none => .null),
    ("folded", .integer report.folded), ("live_instructions", .integer report.live)]

namespace Command

/-! ## Input -/

/-- How it is told why a text is not the document that it should be. -/
structure Wording where
  /-- Why a text is not flat code. -/
  code : String → String := FlatCode.noDocument
  /-- Why a text is not settings. -/
  settings : String → String := Settings.noDocument

/-- How documents are read from files. -/
structure Reader where
  /-- The text of a file. -/
  file : String → Except Fault String
  /-- How it is told why a text is no document. -/
  wording : Wording := {}

namespace Reader

/-- Reading from a file system as it stands. -/
def of {σ : Type} [FileSystem σ] (files : σ) (wording : Wording) : Reader where
  file := FileSystem.read files
  wording := wording

/-- The settings in a file. -/
def settings (reader : Reader) (path : String) : Except Fault Settings := do
  Settings.parse (← reader.file path) reader.wording.settings

/-- The flat code in a file. -/
def code (reader : Reader) (path : String) : Except Fault FlatCode := do
  FlatCode.parse (← reader.file path) reader.wording.code

end Reader

/--
The settings of a request: those of its file, or the usual ones, with the request's own on top.
-/
def settings (reader : Reader) (request : InlineRequest) : Except Fault Settings := do
  let base ← match request.config with
    | some path => reader.settings path
    | none => .ok {}
  return { base with
    fold := base.fold || request.fold
    audit := base.audit && !request.noVerify }

/-- The routine of the flat code in a file. -/
def load (reader : Reader) (path : String) : Except Fault Routine := do
  (← reader.code path).build

/-! ## Output -/

/-- A whole output and where it goes. -/
structure Emission where
  /-- The file, or none for the standard output. -/
  target : Option String
  /-- The output. -/
  text : String
deriving DecidableEq, Repr

/-- The texts of some routines, each ended by a line break. -/
def texts (rs : List Routine) : Except Fault String := do
  let texts ← rs.mapM (·.text)
  return String.join (texts.map (· ++ "\n"))

/-- The reports, ended by a line break. -/
def statistics (reports : List RoutineReport) : String :=
  (Value.array (reports.map (·.toJson))).pretty ++ "\n"

/-- What the command that nests emits. -/
def emitNested (reader : Reader) (request : InlineRequest) : Except Fault Emission := do
  let settings ← settings reader request
  let routines ← request.inputs.mapM (load reader)
  let processed := processAll settings routines
  let reports ← processed.mapM (·.report)
  let trees ← texts (processed.map (·.code))
  return {
    target := request.output
    text := trees ++ if request.stats then statistics reports else "" }

/-- What a command emits. -/
def emit (reader : Reader) : Command → Except Fault Emission
  | .inline request => emitNested reader request
  | .show input => do
    let r ← load reader input
    return { target := none, text := ← texts [r] }

/-- The files that a command reads, in the order in which it reads them. -/
def sources : Command → List String
  | .inline request => request.config.toList ++ request.inputs
  | .show input => [input]

/-! ## Runs on a file system -/

/-- What a run leaves behind. -/
structure Outcome (σ : Type) where
  /-- What went to the standard output. -/
  stdout : String
  /-- The files afterwards. -/
  files : σ
  /-- Why the run failed, if it did. -/
  failure : Option Fault
deriving DecidableEq, Repr

section

variable {σ : Type}

/-- The exit code of a run. -/
def Outcome.exitCode (outcome : Outcome σ) : Nat := if outcome.failure.isSome then 1 else 0

variable [FileSystem σ]

/-- Puts an emission where it goes. -/
def deliver (files : σ) (emission : Emission) : Outcome σ :=
  match emission.target with
  | none => { stdout := emission.text, files := files, failure := none }
  | some path =>
    match FileSystem.write path emission.text files with
    | .ok () after => { stdout := "", files := after, failure := none }
    | .error fault after => { stdout := "", files := after, failure := some fault }

/-- Runs a command on files. -/
def run (files : σ) (command : Command) (wording : Wording := {}) : Outcome σ :=
  match command.emit (.of files wording) with
  | .ok emission => deliver files emission
  | .error fault => { stdout := "", files := files, failure := some fault }

end

end Command

end StackTree
