import StackTree.Proofs.Coherence
import StackTree.Proofs.FlatCode.Build
import StackTree.Proofs.Folding.Bodies
import StackTree.Proofs.Nesting.Stalls

/-!
# Processing neither fails nor depends on audits

A routine is proper when it is sound and its body lists free nodes, each once. Both passes turn a
proper routine into a proper one. An audit asks for no more than that, so an audit after a pass
finds nothing and changes nothing (`Proper.auditIf_eq`), and what a pipeline does is the same with
audits and without.

Nesting allocates nothing. Only folding can run out of room, and it does not as long as the arena
takes the constants that it makes (`Routine.HasRoom`). What a report counts are nodes of the arena,
so its counts are no greater than the arena.

## Main definitions

* `RoutineReport.AtMost`: no count of the report is above a bound.
* `Routine.Proper`: what passes and audits need of a routine.
* `Routine.HasRoom`: the arena does not fill up while the routine is processed.
* `GoesWell`: a step of a pipeline that ends well, with audits and without.
* `Routine.ProcessesTo`: what processing a routine comes to.

## Main results

* `Proper.nestBody`, `Proper.foldBody`: the passes keep routines proper.
* `runNesting_goesWell`, `runFolding_goesWell`, `process_goesWell`: the steps of the pipeline and
  the whole of it.
* `processing_never_fails`: the same for reachable routines, and for those of flat code.
-/

namespace StackTree

open Runs Routine

/-- No count of the report is above the bound. -/
structure NestingReport.AtMost (report : NestingReport) (bound : Nat) : Prop where
  /-- The entries before. -/
  before : report.entriesBefore ≤ bound
  /-- The entries after. -/
  after : report.entriesAfter ≤ bound
  /-- The entries that were consumed. -/
  consumed : report.consumed ≤ bound
  /-- The entries that stalled. -/
  stalled : report.stalled ≤ bound

/-- No count of the report is above the bound. -/
structure RoutineReport.AtMost (report : RoutineReport) (bound : Nat) : Prop where
  /-- What nesting reported. -/
  nesting : ∀ nesting ∈ report.nesting, nesting.AtMost bound
  /-- The operators that became constants. -/
  folded : report.folded ≤ bound
  /-- The nodes. -/
  live : report.live ≤ bound

theorem NestingReport.AtMost.mono {report : NestingReport} {low high : Nat}
    (h : report.AtMost low) (hle : low ≤ high) : report.AtMost high :=
  ⟨Nat.le_trans h.before hle, Nat.le_trans h.after hle, Nat.le_trans h.consumed hle,
    Nat.le_trans h.stalled hle⟩

theorem RoutineReport.AtMost.mono {report : RoutineReport} {low high : Nat}
    (h : report.AtMost low) (hle : low ≤ high) : report.AtMost high :=
  ⟨fun nesting hnesting => (h.nesting nesting hnesting).mono hle, Nat.le_trans h.folded hle,
    Nat.le_trans h.live hle⟩

/-- The report on a walk counts entries. -/
theorem Nest.report_atMost {ts : List Tree} {bound : Nat} (h : ts.length ≤ bound)
    (houtput : (Nest.start.run ts).output.length ≤ ts.length) :
    ((Nest.start.run ts).report ts.length).AtMost bound where
  before := h
  after := Nat.le_trans houtput h
  consumed := Nat.le_trans (Nat.sub_le _ _) h
  stalled := by
    show (Nest.start.run ts).stalled ≤ bound
    have hstalling := (stalling_sublist Nest.start ts).length_le
    rw [List.length_map] at hstalling
    rw [stalled_run, Nest.start, Nat.zero_add]
    exact Nat.le_trans hstalling h

namespace Routine

variable {r s : Routine}

/-- A sound routine whose body lists free nodes, each once. -/
structure Proper (r : Routine) : Prop where
  /-- The nodes, the links and the stored effects are right. -/
  sound : r.Sound
  /-- The entries of the body hang nowhere and are listed once. -/
  free : r.AllFree r.body

namespace Proper

/-- A body of the trees that hang nowhere makes a proper routine. -/
theorem of_supplies {ts : List Tree} (hs : s.Sound) (hsup : s.Supplies ts)
    (hbody : s.body = ts.map Tree.id) : s.Proper := by
  constructor
  · exact hs
  · rw [hbody]
    exact hsup.free

/-- An audit of a proper routine finds nothing. -/
theorem auditIf_eq (h : r.Proper) (settings : Settings) : auditIf settings r = .ok () r := by
  unfold auditIf
  cases settings.audit with
  | false => rfl
  | true => exact ask_of_ok (h.sound.audit_ok_iff.mpr h.free.2)

/-- A proper routine has no more entries than nodes. -/
theorem length_body_le (h : r.Proper) : r.body.length ≤ r.live := by
  rw [h.sound.live_eq]
  exact length_le_liveNodes h.free.1 fun m hm => (h.free.2 m hm).isLive

/-- A proper routine has no more live nodes than its arena has. -/
theorem live_le_size (h : r.Proper) : r.live ≤ r.nodes.size := by
  rw [h.sound.live_eq]
  exact r.liveNodes_le_size

/-- Nesting a proper routine goes well. The routine is proper again, no node was allocated, there
are no more nodes than before, and the report counts some of them. -/
theorem nestBody (h : r.Proper) : ∃ report s, StackTree.nestBody r = .ok report s ∧ s.Proper ∧
    s.nodes.size = r.nodes.size ∧ s.live ≤ r.live ∧ report.AtMost r.live := by
  obtain ⟨ts, hts⟩ := h.sound.exists_showsAll h.free
  obtain ⟨s, hrun, hnests⟩ := nestBody_eq h.sound h.free hts
  have hentries : ((Nest.start.run ts).output.map Tree.id).Sublist (ts.map Tree.id) :=
    keptByPulls_entries.run Nest.ready_start (h.sound.trees_sound hts)
  have hlength := hentries.length_le
  rw [List.length_map, List.length_map] at hlength
  have hlive : s.live + ts.length = r.live + (Nest.start.run ts).output.length := hnests.live_eq
  have hbody : ts.length ≤ r.live := by
    rw [← List.length_map, hts.map_id]
    exact h.length_body_le
  refine ⟨_, _, hrun, of_supplies (hnests.sound.with_body _) (hnests.supplies.with_body _) rfl,
    hnests.size_eq, ?_, Nest.report_atMost hbody hlength⟩
  show s.live ≤ r.live
  omega

/-- Folding a proper routine goes well while there is room. The routine is proper again, and the
arena has grown by one node for each operator that became a constant. -/
theorem foldBody (h : r.Proper) (hroom : r.RoomToFold) :
    ∃ count s, StackTree.foldBody r = .ok count s ∧ s.Proper ∧
      s.nodes.size = r.nodes.size + count ∧ s.nodes.size ≤ capacity := by
  obtain ⟨ts, hts⟩ := h.sound.exists_showsAll h.free
  obtain ⟨s, hrun, hrefolds, hbody⟩ := foldBody_eq h.sound h.free hts hroom
  refine ⟨_, s, hrun, of_supplies hrefolds.sound hrefolds.supplies hbody, hrefolds.size_eq, ?_⟩
  rw [hrefolds.size_eq]
  exact hroom ts (h.sound.mapM_tree hts)

end Proper

/-- The routine that nesting hands on. -/
def afterNesting (nest : Bool) (r : Routine) : Routine :=
  if nest then leftBy (StackTree.nestBody r) else r

/-- While the routine is processed, the arena takes every node that is allocated: those are the
constants that folding makes, if it runs. -/
def HasRoom (settings : Settings) (r : Routine) : Prop :=
  settings.fold = true → (r.afterNesting settings.nest).RoomToFold

/-- A routine that could grow by as many nodes as it has has room, nested or not. -/
theorem Proper.hasRoom (h : r.Proper) (hfits : r.nodes.size + r.live ≤ capacity)
    (settings : Settings) : r.HasRoom settings := by
  intro _
  unfold afterNesting
  cases settings.nest with
  | false => exact roomToFold_of_live h.sound h.free hfits
  | true =>
    obtain ⟨report, s, hrun, hs, hsize, hlive, -⟩ := h.nestBody
    rw [hrun]
    apply roomToFold_of_live hs.sound hs.free
    show s.nodes.size + s.live ≤ capacity
    omega

end Routine

/-! ## Steps of a pipeline -/

variable {r s t : Routine} {α β : Type}

/-- Started in one routine, the step ends well in a proper one. Neither the answer nor that routine
depends on whether the settings ask for audits. -/
structure GoesWell (step : Settings → Edit α) (settings : Settings) (r : Routine) (a : α)
    (s : Routine) : Prop where
  /-- The step ends with that answer in that routine, audited or not. -/
  run_eq : ∀ audit, step { settings with audit := audit } r = .ok a s
  /-- The routine is proper. -/
  proper : s.Proper

namespace GoesWell

variable {settings : Settings}

theorem pure (hr : r.Proper) (a : α) : GoesWell (fun _ => Pure.pure a) settings r a r :=
  ⟨fun _ => rfl, hr⟩

/-- A run that leaves a proper routine may be audited afterwards. -/
theorem of_run {run : Edit α} {a : α} (hrun : run r = .ok a s) (hs : s.Proper) :
    GoesWell (fun settings => do
      let a ← run
      auditIf settings
      return a) settings r a s := by
  constructor
  · intro audit
    rw [run_bind_of_ok hrun, run_bind_of_ok (hs.auditIf_eq _)]
    rfl
  · exact hs

end GoesWell

/-- Nesting a proper routine goes well in a pipeline. The arena keeps its size. -/
theorem runNesting_goesWell (hr : r.Proper) (settings : Settings) (enabled : Bool) :
    ∃ done, GoesWell (fun settings => runNesting settings { enabled := enabled }) settings r done
        (r.afterNesting enabled) ∧
      (r.afterNesting enabled).nodes.size = r.nodes.size ∧
      ∀ report ∈ done.lastReport, report.AtMost r.nodes.size := by
  unfold runNesting afterNesting
  cases enabled with
  | false =>
    refine ⟨_, .pure hr _, rfl, ?_⟩
    rintro _ ⟨⟩
  | true =>
    obtain ⟨report, s, hrun, hs, hsize, -, hcounts⟩ := hr.nestBody
    have hpass : NestingPass.run { enabled := true } r =
        .ok { enabled := true, lastReport := some report } s := by
      unfold NestingPass.run
      rw [run_bind_of_ok hrun]
      rfl
    simp only [if_true, hrun]
    refine ⟨_, .of_run hpass hs, hsize, ?_⟩
    rintro _ ⟨⟩
    exact hcounts.mono hr.live_le_size

/-- Folding a proper routine goes well in a pipeline while there is room. The arena has grown by one
node for each operator that became a constant. -/
theorem runFolding_goesWell (hr : r.Proper) (settings : Settings) (enabled : Bool)
    (hroom : enabled = true → r.RoomToFold) :
    ∃ done s, GoesWell (fun settings => runFolding settings { enabled := enabled }) settings r done
        s ∧
      s.nodes.size = r.nodes.size + done.folded ∧
      (r.nodes.size ≤ capacity → s.nodes.size ≤ capacity) := by
  unfold runFolding
  cases henabled : enabled with
  | false => exact ⟨{ enabled := false }, r, .pure hr _, rfl, id⟩
  | true =>
    obtain ⟨count, s, hrun, hs, hsize, hfits⟩ := hr.foldBody (hroom henabled)
    have hpass : FoldingPass.run { enabled := true } r =
        .ok { enabled := true, folded := 0 + count } s := by
      unfold FoldingPass.run
      rw [run_bind_of_ok hrun]
      rfl
    simp only [if_true]
    refine ⟨_, s, .of_run hpass hs, ?_, fun _ => hfits⟩
    rw [hsize, Nat.zero_add]

/-- Processing a proper routine goes well while there is room, and the report counts nodes. -/
theorem process_goesWell (hr : r.Proper) (settings : Settings) (hroom : r.HasRoom settings) :
    ∃ report s, GoesWell process settings r report s ∧ report.live = s.live ∧
      report.AtMost s.nodes.size ∧ (r.nodes.size ≤ capacity → s.nodes.size ≤ capacity) := by
  obtain ⟨nesting, hnesting, hnested, hcounts⟩ := runNesting_goesWell hr settings settings.nest
  obtain ⟨folding, s, hfolding, hsize, hfits⟩ :=
    runFolding_goesWell hnesting.proper settings settings.fold hroom
  rw [hnested] at hsize hfits
  refine ⟨⟨s.name, nesting.lastReport, folding.folded, s.live⟩, s, ⟨fun audit => ?_,
    hfolding.proper⟩, rfl, ⟨?_, ?_, hfolding.proper.live_le_size⟩, hfits⟩
  · unfold process
    rw [run_bind_of_ok (hnesting.run_eq audit), run_bind_of_ok (hfolding.run_eq audit)]
    rfl
  · intro report hreport
    exact (hcounts report hreport).mono (by omega)
  · show folding.folded ≤ s.nodes.size
    omega

/-! ## Reachable routines -/

/-- With audits and without, processing the routine ends well, with the same report and in the same
routine. Its body lists free nodes again, each once, and the report says how many nodes there
are. -/
structure Routine.ProcessesTo (r : Routine) (settings : Settings) (report : RoutineReport)
    (s : Routine) : Prop where
  /-- Audits make no difference. -/
  run_eq : ∀ audit, process { settings with audit := audit } r = .ok report s
  /-- The body can be processed again. -/
  free : s.AllFree s.body
  /-- The report counts the live nodes. -/
  live_eq : report.live = s.liveNodes

theorem Routine.Proper.processesTo (hr : r.Proper) (settings : Settings)
    (hroom : r.HasRoom settings) : ∃ report s, r.ProcessesTo settings report s := by
  obtain ⟨report, s, hgoes, hlive, -⟩ := process_goesWell hr settings hroom
  exact ⟨report, s, hgoes.run_eq, hgoes.proper.free, hlive.trans hgoes.proper.sound.live_eq⟩

/-- The routine of valid flat code that fits is proper. -/
theorem FlatCode.build_proper {code : FlatCode} (hvalid : code.validate = .ok ())
    (hfits : nodeCount code.entries ≤ capacity) :
    ∃ r, code.build = .ok r ∧ r.Proper ∧ r.nodes.size = nodeCount code.entries := by
  obtain ⟨r, ts, hbuild, hgrows, hbody, -⟩ := build_ok hvalid hfits
  refine ⟨r, hbuild, .of_supplies hgrows.sound hgrows.supplies hbody, ?_⟩
  rw [hgrows.size_eq]
  exact Nat.zero_add _

/--
Whichever passes the settings ask for, processing a reachable routine whose body lists free nodes,
each once, ends well as long as the arena does not fill up. The report and the routine it leaves are
the same with audits and without, the body lists free nodes again, each once, and the report counts
the live nodes. This holds in particular of the routine that is built from valid flat code.
-/
theorem processing_never_fails (settings : Settings) :
    (∀ r : Routine, r.Reachable → r.AllFree r.body → r.HasRoom settings →
      ∃ report s, r.ProcessesTo settings report s) ∧
    ∀ code : FlatCode, code.validate = .ok () → FlatCode.nodeCount code.entries ≤ capacity →
      ∃ r, code.build = .ok r ∧
        (r.HasRoom settings → ∃ report s, r.ProcessesTo settings report s) := by
  constructor
  · intro r hr hfree hroom
    exact Proper.processesTo ⟨hr.sound, hfree⟩ settings hroom
  · intro code hvalid hfits
    obtain ⟨r, hbuild, hproper, -⟩ := FlatCode.build_proper hvalid hfits
    exact ⟨r, hbuild, hproper.processesTo settings⟩

/-- A product of constants is nested into the store and folded, whether or not it is audited. -/
theorem processing_never_fails_on_product :
    let code : FlatCode := ⟨"main", [.const 6, .const 7, .binary .mul, .store 0]⟩
    let settings : Settings := { nest := true, fold := true }
    let report : RoutineReport := ⟨"main", some ⟨4, 1, 3, 0, true⟩, 1, 2⟩
    ∃ r s, code.build = .ok r ∧ r.Reachable ∧ r.AllFree r.body ∧ r.HasRoom settings ∧
      r.ProcessesTo settings report s := by
  intro code settings report
  have hvalid : code.validate = .ok () := rfl
  have hfits : FlatCode.nodeCount code.entries ≤ capacity := by decide
  have htwice : FlatCode.nodeCount code.entries + FlatCode.nodeCount code.entries ≤ capacity := by
    decide
  obtain ⟨r, hbuild, hproper, hsize⟩ := FlatCode.build_proper hvalid hfits
  have hreach : r.Reachable := .build hbuild
  have hroom : r.HasRoom settings := by
    apply hproper.hasRoom
    have hlive := r.liveNodes_le_size
    rw [← hproper.sound.live_eq] at hlive
    omega
  obtain ⟨found, s, hfound⟩ := (processing_never_fails settings).1 r hreach hproper.free hroom
  have hreport : (match code.build with
      | .ok r => (processRoutine settings r).report.toOption
      | .error _ => none) = some report := by
    decide +kernel
  have hrun : process settings r = .ok found s := hfound.run_eq true
  rw [hbuild] at hreport
  simp only [processRoutine, hrun, Except.toOption, Option.some.injEq] at hreport
  exact ⟨r, s, hbuild, hreach, hproper.free, hroom, hreport ▸ hfound⟩

end StackTree
