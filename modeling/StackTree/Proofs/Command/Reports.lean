import StackTree.Command.Run
import StackTree.Proofs.Json.Fields
import StackTree.Proofs.Json.Pretty
import StackTree.Proofs.Processing

/-!
# What the statistics say

The statistics are an array with an object for each report, in the order of the reports. An object
holds the name of the routine, what nesting did to it (or nothing, where nesting did not run), how
many operators became constants and how many nodes there are. All of it reads back from the text,
as long as the counts are integers of 64 bits; what a report counts fits into an arena, so they
are.

## Main definitions

* `RoutineReport.ToldBy`: the fields of an object tell all that is in a report.
* `Command.Tells`: a text is an array that tells some reports.

## Main results

* `Command.statistics_tells`: the statistics on some reports tell them.
-/

namespace StackTree

open Json (Fits HasField Value)

/-- The fields tell what nesting reported. -/
structure NestingReport.ToldBy (report : NestingReport) (fields : List (String × Value)) :
    Prop where
  /-- How many entries there were. -/
  before : HasField fields "entries_before" (.integer report.entriesBefore)
  /-- How many there are. -/
  after : HasField fields "entries_after" (.integer report.entriesAfter)
  /-- How many were consumed. -/
  consumed : HasField fields "consumed" (.integer report.consumed)
  /-- How many stalled. -/
  stalled : HasField fields "stalled" (.integer report.stalled)
  /-- Whether none did. -/
  finished : HasField fields "finished" (.bool report.finished)

/-- The fields tell what was reported on a routine. -/
structure RoutineReport.ToldBy (report : RoutineReport) (fields : List (String × Value)) :
    Prop where
  /-- Which routine it is. -/
  name : HasField fields "name" (.string report.name)
  /-- What nesting did, if it ran. -/
  nested : ∀ nesting, report.nesting = some nesting →
    ∃ parts, HasField fields "inlining" (.record parts) ∧ nesting.ToldBy parts
  /-- Nothing, if it did not. -/
  notNested : report.nesting = none → HasField fields "inlining" .null
  /-- How many operators became constants. -/
  folded : HasField fields "folded" (.integer report.folded)
  /-- How many nodes there are. -/
  live : HasField fields "live_instructions" (.integer report.live)

namespace Command

/-- The text is an array with an object for each report, which tells it. -/
def Tells (text : String) (reports : List RoutineReport) : Prop :=
  ∃ objects : List (List (String × Value)), Json.read text = some (.array (objects.map .record)) ∧
    List.Forall₂ RoutineReport.ToldBy reports objects

end Command

/-! ## Objects that tell reports -/

theorem NestingReport.toldBy_toJson (report : NestingReport) :
    ∃ fields, report.toJson = .record fields ∧ report.ToldBy fields := by
  refine ⟨_, rfl, ⟨?_, ?_, ?_, ?_, ?_⟩⟩ <;> simp [Json.hasField_iff]

theorem RoutineReport.toldBy_toJson (report : RoutineReport) :
    ∃ fields, report.toJson = .record fields ∧ report.ToldBy fields := by
  refine ⟨_, rfl, ⟨?_, fun nesting hnesting => ?_, fun hnesting => ?_, ?_, ?_⟩⟩
  · simp [Json.hasField_iff]
  · obtain ⟨parts, hparts, htold⟩ := nesting.toldBy_toJson
    exact ⟨parts, by simp [Json.hasField_iff, hnesting, hparts], htold⟩
  · simp [Json.hasField_iff, hnesting]
  · simp [Json.hasField_iff]
  · simp [Json.hasField_iff]

section Plain

variable {bound : Nat}

/-- A number up to such a bound is an integer of 64 bits. -/
theorem fits_of_le (hbound : bound < UInt64.size) {n : Nat} (h : n ≤ bound) : Fits n :=
  Json.fits_natCast (Nat.lt_of_le_of_lt h hbound)

theorem NestingReport.AtMost.plain {report : NestingReport} (h : report.AtMost bound)
    (hbound : bound < UInt64.size) : report.toJson.Plain := by
  simp [toJson, fits_of_le hbound h.before, fits_of_le hbound h.after, fits_of_le hbound h.consumed,
    fits_of_le hbound h.stalled]

/-- The value of a report reads back if its counts are integers of 64 bits. -/
theorem RoutineReport.AtMost.plain {report : RoutineReport} (h : report.AtMost bound)
    (hbound : bound < UInt64.size) : report.toJson.Plain := by
  have hfolded := fits_of_le hbound h.folded
  have hlive := fits_of_le hbound h.live
  unfold toJson
  cases hnesting : report.nesting with
  | none => simp [hfolded, hlive]
  | some nesting => simp [hfolded, hlive, (h.nesting nesting hnesting).plain hbound]

end Plain

/-- The statistics on some reports tell them, in their order, if all counts are integers of 64
bits. -/
theorem Command.statistics_tells {reports : List RoutineReport} {bound : Nat}
    (hbound : bound < UInt64.size) (h : ∀ report ∈ reports, report.AtMost bound) :
    Tells (statistics reports) reports := by
  have hplain : (Value.array (reports.map (·.toJson))).Plain := by
    simp only [Value.plain_array_iff, List.forall_mem_map]
    exact fun report hreport => (h report hreport).plain hbound
  have hread : Json.read (statistics reports) = some (.array (reports.map (·.toJson))) :=
    Json.read_pretty hplain (by simp [Json.isBlank])
  choose objects hobjects htold using RoutineReport.toldBy_toJson
  refine ⟨reports.map objects, ?_, ?_⟩
  · rw [hread, List.map_map]
    congr 2
    exact List.map_congr_left fun report _ => hobjects report
  · exact List.forall₂_map_right_iff.mpr (List.forall₂_same.mpr fun report _ => htold report)

end StackTree
