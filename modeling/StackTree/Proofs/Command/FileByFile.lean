import StackTree.Proofs.Command.Arguments
import StackTree.Proofs.Command.Files
import StackTree.Proofs.Command.Reports
import StackTree.Proofs.Command.Sources
import StackTree.Proofs.FlatCode.Faithful
import StackTree.Proofs.Text.Pieces

/-!
# Nesting files is all or nothing, and goes file by file

The command that nests reads everything first: the settings, then the files in their order. The
first of these that cannot be used ends the run with its fault, nothing is written and nothing is
printed. After that nothing can fail any more, as long as the arenas take the nodes and the output
can be written to: the routines are proper, so processing them ends well, and so does writing them
out.

The routines share nothing. What is put out for several files is therefore what is put out for each
of them alone, one after the other, with the reports behind all of it. None of this depends on how
the file system follows paths, nor on the words in which it is told why a text is no document.

## Main definitions

* `InlineRequest.HasRoom`: the arenas take all that a run builds.
* `Command.invoke`: a run of the program with some arguments.
* `Command.Emits`, `Command.Fails`: a run that puts a text out, and one that fails.
* `InlineRequest.EmitsAlone`: what the runs for one file alone put out.

## Main results

* `Routine.Proper.exists_text`: a proper routine can be written out.
* `Command.emitNested_eq`: what is put out for files each of which produces something.
* `Command.inline_all_or_nothing`: the two ways in which a run can go.
-/

namespace StackTree

open Runs Routine

/-! ## Texts of routines -/

section Lists

variable {α β : Type}

theorem mapM_of_forall₂ {f : α → Except Fault β} {as : List α} {bs : List β}
    (h : List.Forall₂ (fun a b => f a = .ok b) as bs) : as.mapM f = .ok bs := by
  induction h with
  | nil => rfl
  | cons hfirst _ ih => rw [List.mapM_cons, hfirst, except_bind_ok, ih, except_bind_ok, except_pure]

theorem exists_forall₂ {R : α → β → Prop} {as : List α} (h : ∀ a ∈ as, ∃ b, R a b) :
    ∃ bs, List.Forall₂ R as bs := by
  induction as with
  | nil => exact ⟨[], .nil⟩
  | cons a as ih =>
    obtain ⟨b, hb⟩ := h a (List.mem_cons_self ..)
    obtain ⟨bs, hbs⟩ := ih fun x hx => h x (List.mem_cons_of_mem a hx)
    exact ⟨b :: bs, .cons hb hbs⟩

end Lists

/-- A proper routine can be written out. -/
theorem Routine.Proper.exists_text {r : Routine} (h : r.Proper) : ∃ text, r.text = .ok text := by
  obtain ⟨lines, hlines⟩ :
      ∃ lines, List.Forall₂ (fun n line => r.render n = .ok line) r.body lines :=
    exists_forall₂ fun n hn => by
      obtain ⟨t, ht⟩ := h.sound.exists_shows (h.free.2 n hn).isLive
      exact ⟨_, h.sound.render_eq ht⟩
  rw [Routine.text, mapM_of_forall₂ hlines]
  exact ⟨_, rfl⟩

/-! ## Room -/

open Command (Reader load load_ok_iff)

/-- The arenas take all that is built: the flat code of every file up to the first source that
cannot be used and, if all of them can be used, the nodes that processing allocates. -/
structure InlineRequest.HasRoom (request : InlineRequest) (reader : Reader) : Prop where
  /-- The flat code that is reached and valid fits. -/
  build : ∀ earlier path later code, request.sources = earlier ++ .code path :: later →
    (∀ source ∈ earlier, source.Usable reader) → reader.code path = .ok code →
    code.validate = .ok () → FlatCode.nodeCount code.entries ≤ capacity
  /-- The routines can be processed. -/
  process : (∀ source ∈ request.sources, source.Usable reader) →
    ∀ found, request.SettledBy reader found → ∀ path ∈ request.inputs, ∀ r,
      load reader path = .ok r → r.HasRoom found

section Room

variable {reader : Reader} {request : InlineRequest} {path : String} {fault : Fault}

/-- There is room if no flat code takes more than half of an arena. -/
theorem InlineRequest.hasRoom_of_twice_le
    (h : ∀ path ∈ request.inputs, ∀ code ∈ (reader.code path).toOption,
      FlatCode.nodeCount code.entries + FlatCode.nodeCount code.entries ≤ capacity) :
    request.HasRoom reader := by
  have htwice : ∀ path ∈ request.inputs, ∀ code, reader.code path = .ok code →
      FlatCode.nodeCount code.entries + FlatCode.nodeCount code.entries ≤ capacity :=
    fun path hpath code hcode => h path hpath code (by rw [hcode]; rfl)
  constructor
  · intro earlier path later code hsplit _ hcode _
    have hmem : Source.code path ∈ request.sources := by simp [hsplit]
    have hpath : path ∈ request.inputs := by simpa [InlineRequest.sources] using hmem
    have := htwice path hpath code hcode
    omega
  · intro _ found _ path hpath r hload
    obtain ⟨text, code, hfile, hwritten, hbuild⟩ := load_ok_iff.mp hload
    have hsum := htwice path hpath code (Reader.code_ok_iff.mpr ⟨text, hfile, hwritten⟩)
    have hfits : FlatCode.nodeCount code.entries ≤ capacity := by omega
    have hvalid := (FlatCode.build_isOk_iff hfits).mp ⟨r, hbuild⟩
    obtain ⟨s, hs, hproper, hsize⟩ := FlatCode.build_proper hvalid hfits
    obtain rfl := Except.ok.inj (hbuild.symm.trans hs)
    have hlive := hproper.live_le_size
    exact hproper.hasRoom (by omega) found

/-- A file among sources that can be used is loaded while there is room. -/
theorem exists_load {earlier later : List Source} (hroom : request.HasRoom reader)
    (hsplit : request.sources = earlier ++ later)
    (hearlier : ∀ other ∈ earlier, other.Usable reader) (hpath : Source.code path ∈ earlier) :
    ∃ r, load reader path = .ok r ∧ r.Proper ∧ r.nodes.size ≤ capacity := by
  obtain ⟨before, after, rfl⟩ := List.append_of_mem hpath
  obtain _ | ⟨hfile, hwritten, hvalid⟩ := hearlier _ hpath
  have hcode := Reader.code_ok_iff.mpr ⟨_, hfile, hwritten⟩
  have hfits : FlatCode.nodeCount _ ≤ capacity :=
    hroom.build before path (after ++ later) _ (by rw [hsplit, List.append_assoc, List.cons_append])
      (fun other hother => hearlier other (List.mem_append_left _ hother)) hcode hvalid
  obtain ⟨r, hbuild, hproper, hsize⟩ := FlatCode.build_proper hvalid hfits
  refine ⟨r, ?_, hproper, hsize ▸ hfits⟩
  rw [load, hcode, except_bind_ok, hbuild]

/-- A file that cannot be used is not loaded either, for the same reason. -/
theorem load_error (h : (Source.code path).Blamed reader fault) :
    load reader path = .error fault := by
  have hcheck := Source.check_error_iff.mpr h
  rw [Source.check] at hcheck
  unfold load
  cases hcode : reader.code path with
  | error other =>
    rw [hcode, except_bind_error] at hcheck
    rw [except_bind_error, Except.error.inj hcheck]
  | ok code =>
    rw [hcode, except_bind_ok] at hcheck
    rw [except_bind_ok, FlatCode.build_error_of_validate hcheck]

end Room

/-! ## What files produce -/

namespace Command

section Emission

variable {reader : Reader} {request : InlineRequest} {path : String} {fault : Fault}
  {found : Settings} {outputs : List (String × RoutineReport)}

/-- What a file produces under some settings. It describes flat code, whose routine is processed:
the text of the routine after that, ended by a line break, and the report. -/
def Produces (reader : Reader) (found : Settings) (path : String)
    (output : String × RoutineReport) : Prop :=
  ∃ input code r s text, reader.file path = .ok input ∧ FlatCode.WrittenIn code input ∧
    code.build = .ok r ∧ process found r = .ok output.2 s ∧ s.text = .ok text ∧
    output.1 = text ++ "\n"

/-- If all sources can be used, a file produces something while there is room. -/
theorem exists_produces (hroom : request.HasRoom reader)
    (husable : ∀ source ∈ request.sources, source.Usable reader)
    (hfound : request.SettledBy reader found) (hpath : path ∈ request.inputs) :
    ∃ output, Produces reader found path output ∧ output.2.AtMost capacity := by
  have hmem : Source.code path ∈ request.sources :=
    List.mem_append_right _ (List.mem_map_of_mem hpath)
  obtain ⟨r, hload, hproper, hsize⟩ := exists_load hroom (List.append_nil _).symm husable hmem
  obtain ⟨report, s, hgoes, -, hcounts, hgrown⟩ :=
    process_goesWell hproper found (hroom.process husable found hfound path hpath r hload)
  obtain ⟨text, htext⟩ := hgoes.proper.exists_text
  obtain ⟨input, code, hfile, hwritten, hbuild⟩ := load_ok_iff.mp hload
  exact ⟨(text ++ "\n", report), ⟨input, code, r, s, text, hfile, hwritten, hbuild,
    hgoes.run_eq found.audit, htext, rfl⟩, hcounts.mono (hgrown hsize)⟩

/-- Files that produce something are loaded, processed and written out one by one. -/
theorem processed_of_produces {paths : List String}
    (h : List.Forall₂ (Produces reader found) paths outputs) :
    ∃ routines lines, paths.mapM (load reader) = .ok routines ∧
      (processAll found routines).mapM (·.report) = .ok (outputs.map Prod.snd) ∧
      ((processAll found routines).map (·.code)).mapM (·.text) = .ok lines ∧
      lines.map (· ++ "\n") = outputs.map Prod.fst := by
  induction h with
  | nil => exact ⟨[], [], rfl, rfl, rfl, rfl⟩
  | @cons path output paths outputs hfirst _ ih =>
    obtain ⟨input, code, r, s, text, hfile, hwritten, hbuild, hprocess, htext, hline⟩ := hfirst
    have hload : load reader path = .ok r :=
      load_ok_iff.mpr ⟨input, code, hfile, hwritten, hbuild⟩
    obtain ⟨routines, lines, hloads, hreports, htexts, hlines⟩ := ih
    have hprocessed : processAll found (r :: routines) =
        ⟨s, .ok output.2⟩ :: processAll found routines := by
      rw [processAll, List.map_cons, processRoutine, hprocess]
      rfl
    refine ⟨r :: routines, text :: lines, ?_, ?_, ?_, ?_⟩
    · rw [List.mapM_cons, hload, except_bind_ok, hloads, except_bind_ok, except_pure]
    · rw [hprocessed, List.mapM_cons, except_bind_ok, hreports, except_bind_ok, except_pure]
      rfl
    · rw [hprocessed, List.map_cons, List.mapM_cons, htext, except_bind_ok, htexts, except_bind_ok,
        except_pure]
    · rw [List.map_cons, List.map_cons, hlines, hline]

/-- What is put out for files that produce something: their texts one after the other, and the
reports behind them if they are asked for. -/
theorem emitNested_eq (hfound : request.SettledBy reader found)
    (h : List.Forall₂ (Produces reader found) request.inputs outputs) :
    emitNested reader request = .ok {
      target := request.output
      text := String.join (outputs.map Prod.fst) ++
        if request.stats then statistics (outputs.map Prod.snd) else "" } := by
  obtain ⟨routines, lines, hloads, hreports, htexts, hlines⟩ := processed_of_produces h
  rw [emitNested, settings_ok_iff.mpr hfound, except_bind_ok, hloads, except_bind_ok]
  simp only [hreports, except_bind_ok, texts, htexts, hlines, except_pure]

/-- Loading files ends with the fault of the first that cannot be used. -/
theorem loads_error (hroom : request.HasRoom reader) {earlier later : List Source} {source : Source}
    (hearlier : ∀ other ∈ request.config.toList.map .settings ++ earlier, other.Usable reader)
    (hsplit : request.inputs.map .code = earlier ++ source :: later)
    (hblamed : source.Blamed reader fault) : request.inputs.mapM (load reader) = .error fault := by
  obtain ⟨before, rest, hinputs, rfl, hrest⟩ := List.map_eq_append_iff.mp hsplit
  obtain ⟨path, after, rfl, rfl, rfl⟩ := List.map_eq_cons_iff.mp hrest
  rw [hinputs]
  refine mapM_of_first_error (fun other hother => ?_) (load_error hblamed)
  have hsources : request.sources = (request.config.toList.map .settings ++ before.map .code) ++
      Source.code path :: after.map .code := by
    rw [InlineRequest.sources, hsplit, List.append_assoc]
  obtain ⟨r, hload, -⟩ := exists_load hroom hsources hearlier
    (List.mem_append_right _ (List.mem_map_of_mem hother))
  exact ⟨r, hload⟩

/-- The settings of a request are found if the source of them, should there be one, can be used. -/
theorem exists_settledBy (h : ∀ source ∈ request.config.toList.map Source.settings,
    source.Usable reader) : ∃ found, request.SettledBy reader found := by
  cases hconfig : request.config with
  | none => exact ⟨_, .usual hconfig⟩
  | some path =>
    obtain ⟨hfile, hwritten⟩ | _ := h (.settings path) (by simp [hconfig])
    exact ⟨_, .written hconfig hfile hwritten⟩

/-- Settings that cannot be used are not found either, for the same reason. -/
theorem settings_error (hconfig : request.config = some path)
    (h : (Source.settings path).Blamed reader fault) : settings reader request = .error fault := by
  have hcheck := Source.check_error_iff.mpr h
  rw [Source.check] at hcheck
  unfold settings
  rw [hconfig]
  cases hbase : reader.settings path with
  | error other =>
    rw [hbase, except_bind_error] at hcheck
    obtain rfl := Except.error.inj hcheck
    simp only [hbase, except_bind_error]
  | ok base => simp [hbase] at hcheck

/-- Nothing is put out if a source cannot be used, and the fault is that of the first one. -/
theorem emitNested_error (hroom : request.HasRoom reader)
    (h : FailsFirst reader request.sources fault) : emitNested reader request = .error fault := by
  obtain ⟨earlier, source, later, hsplit, hearlier, hblamed⟩ := h
  rw [InlineRequest.sources] at hsplit
  -- A file of settings comes first, so its fault is the first one if it has any.
  cases hconfig : request.config with
  | none =>
    rw [hconfig] at hsplit
    have hloads := loads_error hroom (by simpa [hconfig] using hearlier) hsplit hblamed
    obtain ⟨found, hfound⟩ : ∃ found, request.SettledBy reader found :=
      exists_settledBy (by simp [hconfig])
    rw [emitNested, settings_ok_iff.mpr hfound, except_bind_ok, hloads, except_bind_error]
  | some path =>
    rw [hconfig] at hsplit
    cases earlier with
    | nil =>
      obtain ⟨rfl, -⟩ := List.cons.inj hsplit
      rw [emitNested, settings_error hconfig hblamed, except_bind_error]
    | cons first rest =>
      obtain ⟨rfl, hinputs⟩ := List.cons.inj hsplit
      have hloads := loads_error hroom (by simpa [hconfig] using hearlier) hinputs hblamed
      obtain ⟨found, hfound⟩ : ∃ found, request.SettledBy reader found :=
        exists_settledBy (by simpa [hconfig] using (List.forall_mem_cons.mp hearlier).1)
      rw [emitNested, settings_ok_iff.mpr hfound, except_bind_ok, hloads, except_bind_error]

end Emission

/-! ## Runs -/

section Runs

variable {σ : Type} [FileSystem σ]

/-- What a run of the program with some arguments leaves behind, unless they are refused. -/
def invoke (files : σ) (wording : Wording) (arguments : List String) :
    Except Refusal (Outcome σ) := do
  return run files (← parse arguments) wording

/-- The text went to the standard output and the files are what they were, or it was written to a
file and nothing else was done. Then reading that file gives the text, if the file keeps what is
written, and every file that this spares is what it was. -/
def Outcome.HasPut (outcome : Outcome σ) (files : σ) (text : String) : Option String → Prop
  | none => outcome.stdout = text ∧ outcome.files = files
  | some path => outcome.stdout = "" ∧ FileSystem.write path text files = .ok () outcome.files ∧
      (FileSystem.Keeps files path → FileSystem.read outcome.files path = .ok text) ∧
      ∀ other, FileSystem.Spares files path other →
        FileSystem.read outcome.files other = FileSystem.read files other

/-- The run ends well and puts the text out. -/
def Emits (files : σ) (wording : Wording) (arguments : List String) (target : Option String)
    (text : String) : Prop :=
  ∃ outcome, invoke files wording arguments = .ok outcome ∧ outcome.exitCode = 0 ∧
    outcome.HasPut files text target

/-- The run ends with that fault, prints nothing and changes no file. -/
def Fails (files : σ) (wording : Wording) (arguments : List String) (fault : Fault) : Prop :=
  ∃ outcome, invoke files wording arguments = .ok outcome ∧ outcome.exitCode = 1 ∧
    outcome.failure = some fault ∧ outcome.stdout = "" ∧ outcome.files = files

/-- Whatever the output is, it can go there. -/
def CanPut (files : σ) (target : Option String) : Prop :=
  ∀ path, target = some path → ∀ text, ∃ after, FileSystem.write path text files = .ok () after

variable {files : σ} {wording : Wording} {arguments : List String} {command : Command}
  {emission : Emission} {fault : Fault}

theorem invoke_of_parse (hparse : parse arguments = .ok command) (files : σ) (wording : Wording) :
    invoke files wording arguments = .ok (run files command wording) := by
  rw [invoke, hparse]
  rfl

/-- What a command emits is put out if the output can go where it should. -/
theorem emits_of_emit (hparse : parse arguments = .ok command)
    (hemit : command.emit (.of files wording) = .ok emission)
    (hput : CanPut files emission.target) :
    Emits files wording arguments emission.target emission.text := by
  obtain ⟨target, text⟩ := emission
  refine ⟨_, invoke_of_parse hparse files wording, ?_⟩
  cases target with
  | none =>
    rw [run, hemit]
    exact ⟨rfl, rfl, rfl⟩
  | some path =>
    obtain ⟨after, hwrite⟩ := hput path rfl text
    have hrun : run files command wording = { stdout := "", files := after, failure := none } := by
      simp only [run, hemit, deliver, hwrite]
    rw [hrun]
    exact ⟨rfl, rfl, hwrite, fun hkeeps => hkeeps text after hwrite,
      fun _ hspares => hspares text after hwrite⟩

/-- A command that emits nothing prints nothing and changes no file. -/
theorem fails_of_emit (hparse : parse arguments = .ok command)
    (hemit : command.emit (.of files wording) = .error fault) :
    Fails files wording arguments fault := by
  refine ⟨_, invoke_of_parse hparse files wording, ?_⟩
  have hrun : run files command wording =
      { stdout := "", files := files, failure := some fault } := by
    simp only [run, hemit]
  rw [hrun]
  exact ⟨rfl, rfl, rfl, rfl⟩

end Runs

end Command

/-! ## One file at a time -/

/-- The same request for a single file, without the reports. -/
def InlineRequest.only (request : InlineRequest) (path : String) : InlineRequest :=
  { request with inputs := [path], stats := false }

/-- The same request with the reports. -/
def InlineRequest.withStats (request : InlineRequest) : InlineRequest :=
  { request with stats := true }

open Command (CanPut Emits Produces Tells Wording emits_of_emit)

variable {σ : Type} [FileSystem σ]

/-- What a run for a file alone puts out under the settings, with the same options otherwise: the
text of the file, and its report as well where reports are asked for. Such a run can be asked
for. -/
structure InlineRequest.EmitsAlone (request : InlineRequest) (files : σ) (wording : Wording)
    (found : Settings) (path : String) (output : String × RoutineReport) : Prop where
  /-- The text and the report are those of the processed routine. -/
  produces : Produces (.of files wording) found path output
  /-- Some arguments ask for the file alone. -/
  parse_only : Command.parse (request.only path).arguments = .ok (.inline (request.only path))
  /-- However the file is asked for alone, the text is put out. -/
  emits_only : ∀ arguments, Command.parse arguments = .ok (.inline (request.only path)) →
    Emits files wording arguments request.output output.1
  /-- Some arguments ask for the report of the file as well. -/
  parse_withStats : Command.parse (request.only path).withStats.arguments =
    .ok (.inline (request.only path).withStats)
  /-- However the report is asked for, it is put out behind the text. -/
  emits_withStats : ∀ arguments,
    Command.parse arguments = .ok (.inline (request.only path).withStats) →
      Emits files wording arguments request.output (output.1 ++ Command.statistics [output.2])
  /-- The report tells what it should. -/
  tells : Tells (Command.statistics [output.2]) [output.2]

namespace Command

variable {files : σ} {wording : Wording} {request : InlineRequest} {path : String}
  {found : Settings} {output : String × RoutineReport}

theorem named_only (h : request.Named) (hpath : path ∈ request.inputs) :
    (request.only path).Named where
  inputs_ne_nil := List.cons_ne_nil path []
  inputs := by simpa [InlineRequest.only] using h.inputs path hpath
  config := h.config
  output := h.output

theorem named_withStats (h : request.Named) : request.withStats.Named :=
  ⟨h.inputs_ne_nil, h.inputs, h.config, h.output⟩

/-- What the statistics are told of fits in an arena, so they tell it. -/
theorem statistics_tells_of_fits {reports : List RoutineReport}
    (h : ∀ report ∈ reports, report.AtMost capacity) : Tells (statistics reports) reports :=
  statistics_tells (by decide) h

/-- The settings of a request do not depend on its files, nor on whether it asks for reports. -/
theorem settledBy_of_eq {other : InlineRequest} {reader : Reader}
    (h : request.SettledBy reader found) (hconfig : other.config = request.config)
    (hfold : other.fold = request.fold) (hverify : other.noVerify = request.noVerify) :
    other.SettledBy reader found := by
  have hover : other.over = request.over := by
    funext base
    rw [InlineRequest.over, InlineRequest.over, hfold, hverify]
  obtain hnone | ⟨hsome, hfile, hwritten⟩ := h
  · rw [← hover]
    exact .usual (hconfig.trans hnone)
  · rw [← hover]
    exact .written (hconfig.trans hsome) hfile hwritten

theorem emitsAlone_of_produces (hnamed : request.Named) (hpath : path ∈ request.inputs)
    (hput : CanPut files request.output) (hfound : request.SettledBy (.of files wording) found)
    (h : Produces (.of files wording) found path output) (hcounts : output.2.AtMost capacity) :
    request.EmitsAlone files wording found path output := by
  have honly := named_only hnamed hpath
  have hone : List.Forall₂ (Produces (.of files wording) found) [path] [output] := .cons h .nil
  refine ⟨h, parse_inline_arguments honly, fun arguments hparse => ?_,
    parse_inline_arguments (named_withStats honly), fun arguments hparse => ?_,
    statistics_tells_of_fits (List.forall_mem_singleton.mpr hcounts)⟩
  · have hemit : emitNested (.of files wording) (request.only path) = _ :=
      emitNested_eq (settledBy_of_eq hfound rfl rfl rfl) hone
    simpa [InlineRequest.only] using emits_of_emit hparse hemit hput
  · have hemit : emitNested (.of files wording) (request.only path).withStats = _ :=
      emitNested_eq (settledBy_of_eq hfound rfl rfl rfl) hone
    simpa [InlineRequest.only, InlineRequest.withStats] using emits_of_emit hparse hemit hput

/--
Nesting some files is all or nothing, on any file system. If the settings and all files can be read,
make sense and are valid, the run ends well: under the settings that are written there it puts out,
in the order of the files, what a run for each of them alone puts out, and behind all of it, if they
were asked for, the reports as an array that tells them in their order. If not, the run ends with
the fault of the first that cannot be used, prints nothing and changes no file, not even the one
that the output was to go to.
-/
theorem inline_all_or_nothing {arguments : List String}
    (hparse : parse arguments = .ok (.inline request))
    (hroom : request.HasRoom (.of files wording)) :
    ((∀ source ∈ request.sources, source.Usable (.of files wording)) →
      CanPut files request.output →
        ∃ found outputs, request.SettledBy (.of files wording) found ∧
          List.Forall₂ (request.EmitsAlone files wording found) request.inputs outputs ∧
          Tells (statistics (outputs.map Prod.snd)) (outputs.map Prod.snd) ∧
          Emits files wording arguments request.output (String.join (outputs.map Prod.fst) ++
            if request.stats then statistics (outputs.map Prod.snd) else "")) ∧
    ((∃ source ∈ request.sources, ¬ source.Usable (.of files wording)) →
      ∃ fault, FailsFirst (.of files wording) request.sources fault ∧
        Fails files wording arguments fault) := by
  constructor
  · intro husable hput
    obtain ⟨found, hfound⟩ : ∃ found, request.SettledBy (.of files wording) found :=
      exists_settledBy fun source hsource => husable source (List.mem_append_left _ hsource)
    obtain ⟨outputs, houtputs⟩ : ∃ outputs, List.Forall₂ (fun path output => path ∈ request.inputs ∧
        Produces (.of files wording) found path output ∧ output.2.AtMost capacity)
        request.inputs outputs :=
      exists_forall₂ fun path hpath => by
        obtain ⟨output, hproduces, hcounts⟩ := exists_produces hroom husable hfound hpath
        exact ⟨output, hpath, hproduces, hcounts⟩
    have hcounts : ∀ output ∈ outputs, output.2.AtMost capacity :=
      ((List.forall₂_and_left _ _).mp (houtputs.flip.imp fun _ _ h => ⟨h.2.2, h⟩)).1
    refine ⟨found, outputs, hfound, ?_, ?_, ?_⟩
    · exact houtputs.imp fun _ _ h =>
        emitsAlone_of_produces (named_of_parse hparse) h.1 hput hfound h.2.1 h.2.2
    · exact statistics_tells_of_fits (List.forall_mem_map.mpr hcounts)
    · have hemit := emitNested_eq hfound (houtputs.imp fun _ _ h => h.2.1)
      exact emits_of_emit hparse hemit hput
  · intro hbad
    obtain ⟨fault, hfault⟩ := exists_failsFirst hbad
    exact ⟨fault, hfault, fails_of_emit hparse (emitNested_error hroom hfault)⟩

/-- A file is nested twice over with the one between that the output goes to, whatever paths lead to
them, and with the settings of a file. When code that is not valid comes before a file that is not
there, the code is to blame, and the file that the output was to go to stays what it was. Settings
that are none come before everything else, and why they are none is told in the words given. -/
theorem inline_all_or_nothing_over_input :
    let settings : Settings := { fold := true, audit := false }
    let files : Files := ⟨[
      (Files.steps "a.json",
        "[\"main\",[[\"ldc_i4\",6],[\"peek\"],[\"binary\",\"mul\"],[\"st_loc\",0]]]"),
      (["data", "b.json"], "[\"twice\",[[\"ld_loc\",0],[\"call\",\"f\",1],[\"ret\"]]]"),
      (Files.steps "short.json", "[\"short\",[[\"ldc_i4\",1],[\"binary\",\"add\"]]]"),
      (Files.steps "notes.txt", "no document"), (["etc", "settings.json"], settings.compact)], home⟩
    let good := ["inline", "/data/b.json", "a.json", "../data/b.json", "-c", "/etc/settings.json",
      "--stats", "-o/home/a.json"]
    let bad := ["inline", "-o", "a.json", "a.json", "short.json", "none.json"]
    let worse := ["inline", "short.json", "-c", "notes.txt"]
    let wording : Wording := { settings := fun text => "cannot settle on " ++ text }
    (∃ request x y z, parse good = .ok (.inline request) ∧
      request.SettledBy (.of files wording) settings ∧
      request.EmitsAlone files wording settings "/data/b.json" x ∧
      request.EmitsAlone files wording settings "a.json" y ∧
      request.EmitsAlone files wording settings "../data/b.json" z ∧
      Tells (statistics [x.2, y.2, z.2]) [x.2, y.2, z.2] ∧
      Emits files wording good (some "/home/a.json")
        (x.1 ++ y.1 ++ z.1 ++ statistics [x.2, y.2, z.2]) ∧
      FileSystem.Keeps files "/home/a.json" ∧
      FileSystem.Spares files "/home/a.json" "/data/b.json") ∧
    Fails files wording bad (.flatEntry 1 "stack underflow: needs 2 value(s), 1 available") ∧
    Fails files wording worse (.settings "cannot settle on no document") := by
  intro settings files good bad worse wording
  have hfails : ∀ arguments request fault, parse arguments = .ok (.inline request) →
      request.HasRoom (.of files wording) → FailsFirst (.of files wording) request.sources fault →
      Fails files wording arguments fault := by
    intro arguments request fault hparse hroom hfirst
    obtain ⟨earlier, source, later, hsplit, -, hblamed⟩ := id hfirst
    obtain ⟨found, hfound, hfails⟩ := (inline_all_or_nothing hparse hroom).2
      ⟨source, by simp [hsplit], hblamed.not_usable⟩
    rwa [hfound.fault_eq hfirst] at hfails
  refine ⟨?_, ?_, ?_⟩
  · let request : InlineRequest := {
      inputs := ["/data/b.json", "a.json", "../data/b.json"]
      config := some "/etc/settings.json"
      stats := true
      output := some "/home/a.json" }
    have hparse : parse good = .ok (.inline request) := by decide +kernel
    have hroom : request.HasRoom (.of files wording) :=
      InlineRequest.hasRoom_of_twice_le (by decide +kernel)
    have hcheck : ∀ source ∈ request.sources, source.check (.of files wording) = .ok () := by
      decide +kernel
    have hb : files.read "/data/b.json" =
        .ok "[\"twice\",[[\"ld_loc\",0],[\"call\",\"f\",1],[\"ret\"]]]" := by decide +kernel
    have hput : CanPut files request.output := by
      intro path hpath text
      obtain rfl : "/home/a.json" = path := Option.some.inj hpath
      have hwrite : files.write "/home/a.json" "" =
          .ok (files.put ["home", "a.json"] { text? := some "" }) := by decide +kernel
      exact Files.takes_any hwrite text
    obtain ⟨found, outputs, hfound, houtputs, htells, hemits⟩ :=
      (inline_all_or_nothing hparse hroom).1
        (fun source hsource => Source.check_ok_iff.mp (hcheck source hsource)) hput
    have hsettled : request.SettledBy (.of files wording) settings :=
      .written rfl (by decide +kernel) settings.writtenIn_compact
    obtain rfl := Except.ok.inj
      ((settings_ok_iff.mpr hfound).symm.trans (settings_ok_iff.mpr hsettled))
    obtain _ | ⟨hx, _ | ⟨hy, _ | ⟨hz, _ | _⟩⟩⟩ := houtputs
    refine ⟨request, _, _, _, hparse, hfound, hx, hy, hz, htells, ?_,
      Files.keeps (by decide +kernel), Files.spares hb (by decide +kernel)⟩
    simpa [request, String.append_assoc] using hemits
  · apply hfails bad {
      inputs := ["a.json", "short.json", "none.json"]
      output := some "a.json" } _ (by decide +kernel)
    · exact InlineRequest.hasRoom_of_twice_le (by decide +kernel)
    · refine ⟨[.code "a.json"], .code "short.json", [.code "none.json"], rfl, ?_, ?_⟩
      · exact List.forall_mem_singleton.mpr (Source.check_ok_iff.mp (by decide +kernel))
      · exact Source.check_error_iff.mp (by decide +kernel)
  · apply hfails worse {
      inputs := ["short.json"]
      config := some "notes.txt" } _ (by decide +kernel)
    · exact InlineRequest.hasRoom_of_twice_le (by decide +kernel)
    · refine ⟨[], .settings "notes.txt", [.code "short.json"], rfl, by simp, ?_⟩
      exact Source.check_error_iff.mp (by decide +kernel)

end Command

end StackTree
