import StackTree.Command.Run
import StackTree.Proofs.FlatCode.Reading
import StackTree.Proofs.Runs
import StackTree.Proofs.Settings

/-!
# What a request reads

The command that nests reads a file of settings, if it is given one, and then its files of flat code
in their order. Such a source can be used if its file can be read and the text is a document of what
it should be; flat code has to be valid as well. Each of these has a fault of its own.

## Main definitions

* `InlineRequest.SettledBy`: the settings that a request comes to.
* `InlineRequest.sources`: what a request reads.
* `Source.Usable`, `Source.Blamed`: a source that can be used, and why one cannot.
* `FailsFirst`: the first of several sources that cannot be used.

## Main results

* `Command.load_ok_iff`: a routine is loaded exactly if a file describes its code.
* `Command.settings_ok_iff`: the settings are found exactly as they are written.
* `Source.check_ok_iff`, `Source.check_error_iff`, `Source.Blamed.not_usable`: each source can be
  used or is to blame, and never both.
* `exists_failsFirst`, `FailsFirst.fault_eq`: among sources that cannot all be used there is a
  first, and its fault is the only one.
-/

namespace StackTree

open Runs Command

/-! ## Documents in files -/

namespace Command.Reader

variable {reader : Reader} {path : String} {fault : Fault}

theorem settings_ok_iff {base : Settings} :
    reader.settings path = .ok base ↔
      ∃ text, reader.file path = .ok text ∧ base.WrittenIn text := by
  unfold settings
  cases reader.file path with
  | error fault => simp
  | ok text => simp [Settings.parse_ok_iff]

theorem settings_error_iff :
    reader.settings path = .error fault ↔ reader.file path = .error fault ∨
      ∃ text, reader.file path = .ok text ∧ (∀ base : Settings, ¬ base.WrittenIn text) ∧
        fault = .settings (reader.wording.settings text) := by
  unfold settings
  cases reader.file path with
  | error other => simp
  | ok text => simp [Settings.parse_error_iff]

theorem code_ok_iff {code : FlatCode} :
    reader.code path = .ok code ↔ ∃ text, reader.file path = .ok text ∧ code.WrittenIn text := by
  unfold Reader.code
  cases reader.file path with
  | error fault => simp
  | ok text => simp [FlatCode.parse_ok_iff]

theorem code_error_iff :
    reader.code path = .error fault ↔ reader.file path = .error fault ∨
      ∃ text, reader.file path = .ok text ∧ (∀ code : FlatCode, ¬ code.WrittenIn text) ∧
        fault = .json (reader.wording.code text) := by
  unfold Reader.code
  cases reader.file path with
  | error other => simp
  | ok text => simp [FlatCode.parse_error_iff]

end Command.Reader

/-- A routine is loaded exactly if a file describes the code that it is built from. -/
theorem Command.load_ok_iff {reader : Reader} {path : String} {r : Routine} :
    load reader path = .ok r ↔ ∃ text code, reader.file path = .ok text ∧
      FlatCode.WrittenIn code text ∧ code.build = .ok r := by
  have hload : load reader path = .ok r ↔
      ∃ code, reader.code path = .ok code ∧ code.build = .ok r := by
    unfold load
    cases reader.code path <;> simp
  rw [hload]
  constructor
  · rintro ⟨code, hcode, hbuild⟩
    obtain ⟨text, hfile, hwritten⟩ := Reader.code_ok_iff.mp hcode
    exact ⟨text, code, hfile, hwritten, hbuild⟩
  · rintro ⟨text, code, hfile, hwritten, hbuild⟩
    exact ⟨code, Reader.code_ok_iff.mpr ⟨text, hfile, hwritten⟩, hbuild⟩

/-! ## Settings -/

/-- The settings with those of the request on top. -/
def InlineRequest.over (request : InlineRequest) (base : Settings) : Settings where
  nest := base.nest
  fold := base.fold || request.fold
  audit := base.audit && !request.noVerify

/-- The settings that a request comes to: those of its file, or the usual ones, with its own on
top. -/
inductive InlineRequest.SettledBy (request : InlineRequest) (reader : Reader) :
    Settings → Prop where
  | usual (config : request.config = none) : SettledBy request reader (request.over {})
  | written {path text : String} {base : Settings} (config : request.config = some path)
      (file : reader.file path = .ok text) (written : base.WrittenIn text) :
      SettledBy request reader (request.over base)

/-- The settings of a request are found exactly as they are written. -/
theorem Command.settings_ok_iff {reader : Reader} {request : InlineRequest} {found : Settings} :
    settings reader request = .ok found ↔ request.SettledBy reader found := by
  unfold settings
  constructor
  · intro h
    cases hconfig : request.config with
    | none =>
      rw [hconfig] at h
      obtain rfl : request.over {} = found := Except.ok.inj h
      exact .usual hconfig
    | some path =>
      rw [hconfig] at h
      simp only at h
      cases hbase : reader.settings path with
      | error fault => simp [hbase] at h
      | ok base =>
        rw [hbase] at h
        obtain rfl : request.over base = found := Except.ok.inj h
        obtain ⟨text, hfile, hwritten⟩ := Reader.settings_ok_iff.mp hbase
        exact .written hconfig hfile hwritten
  · rintro (hconfig | ⟨hconfig, hfile, hwritten⟩)
    · rw [hconfig]
      rfl
    · have hbase := Reader.settings_ok_iff.mpr ⟨_, hfile, hwritten⟩
      rw [hconfig]
      simp only [hbase, except_bind_ok]
      rfl

/-! ## Sources -/

/-- Something that a request reads. -/
inductive Source where
  /-- A file with settings. -/
  | settings (path : String)
  /-- A file with flat code. -/
  | code (path : String)
deriving DecidableEq, Repr

/-- What a request reads: the settings, if it names a file for them, and then the flat code. -/
def InlineRequest.sources (request : InlineRequest) : List Source :=
  request.config.toList.map .settings ++ request.inputs.map .code

namespace Source

/-- The file of a source. -/
def path : Source → String
  | settings path | code path => path

/-- The source can be used: its text describes settings, or flat code that is valid. -/
inductive Usable (reader : Reader) : Source → Prop where
  | settings {path text : String} {base : Settings} (file : reader.file path = .ok text)
      (written : base.WrittenIn text) : Usable reader (.settings path)
  | code {path text : String} {code : FlatCode} (file : reader.file path = .ok text)
      (written : code.WrittenIn text) (valid : code.validate = .ok ()) :
      Usable reader (.code path)

/-- The fault says why the source cannot be used. -/
inductive Blamed (reader : Reader) : Source → Fault → Prop where
  | unread {source : Source} {fault : Fault} (file : reader.file source.path = .error fault) :
      Blamed reader source fault
  | noSettings {path text : String} (file : reader.file path = .ok text)
      (none : ∀ base : Settings, ¬ base.WrittenIn text) :
      Blamed reader (.settings path) (.settings (reader.wording.settings text))
  | noCode {path text : String} (file : reader.file path = .ok text)
      (none : ∀ code : FlatCode, ¬ code.WrittenIn text) :
      Blamed reader (.code path) (.json (reader.wording.code text))
  | invalid {path text : String} {code : FlatCode} {fault : Fault}
      (file : reader.file path = .ok text) (written : code.WrittenIn text)
      (refused : code.validate = .error fault) : Blamed reader (.code path) fault

/-- Whether a source can be used, and the fault if it cannot. -/
def check (reader : Reader) : Source → Except Fault Unit
  | settings path => do
    let _ ← reader.settings path
  | code path => do
    let code ← reader.code path
    code.validate

variable {reader : Reader} {source : Source} {fault : Fault}

theorem check_ok_iff : source.check reader = .ok () ↔ source.Usable reader := by
  cases source with
  | settings path =>
    have hok : (settings path).check reader = .ok () ↔
        ∃ base, reader.settings path = .ok base := by
      rw [check]
      cases reader.settings path <;> simp
    simp only [hok, Reader.settings_ok_iff]
    constructor
    · rintro ⟨base, text, file, written⟩
      exact .settings file written
    · rintro ⟨file, written⟩
      exact ⟨_, _, file, written⟩
  | code path =>
    have hok : (code path).check reader = .ok () ↔
        ∃ code, reader.code path = .ok code ∧ code.validate = .ok () := by
      rw [check]
      cases reader.code path <;> simp
    simp only [hok, Reader.code_ok_iff]
    constructor
    · rintro ⟨code, ⟨text, file, written⟩, valid⟩
      exact .code file written valid
    · rintro (_ | ⟨file, written, valid⟩)
      exact ⟨_, ⟨_, file, written⟩, valid⟩

theorem check_error_iff : source.check reader = .error fault ↔ source.Blamed reader fault := by
  cases source with
  | settings path =>
    have herror : (settings path).check reader = .error fault ↔
        reader.settings path = .error fault := by
      rw [check]
      cases reader.settings path <;> simp
    rw [herror, Reader.settings_error_iff]
    constructor
    · rintro (file | ⟨text, file, none, rfl⟩)
      · exact .unread file
      · exact .noSettings file none
    · rintro (file | ⟨file, none⟩)
      · exact .inl file
      · exact .inr ⟨_, file, none, rfl⟩
  | code path =>
    have herror : (code path).check reader = .error fault ↔ reader.code path = .error fault ∨
        ∃ code, reader.code path = .ok code ∧ code.validate = .error fault := by
      rw [check]
      cases reader.code path <;> simp
    simp only [herror, Reader.code_error_iff, Reader.code_ok_iff]
    constructor
    · rintro ((file | ⟨text, file, none, rfl⟩) | ⟨code, ⟨text, file, written⟩, refused⟩)
      · exact .unread file
      · exact .noCode file none
      · exact .invalid file written refused
    · rintro (file | _ | ⟨file, none⟩ | ⟨file, written, refused⟩)
      · exact .inl (.inl file)
      · exact .inl (.inr ⟨_, file, none, rfl⟩)
      · exact .inr ⟨_, ⟨_, file, written⟩, refused⟩

/-- A source that is to blame cannot be used. -/
theorem Blamed.not_usable (h : source.Blamed reader fault) : ¬ source.Usable reader := by
  intro husable
  have hboth := (check_ok_iff.mpr husable).symm.trans (check_error_iff.mpr h)
  cases hboth

end Source

/-! ## The first source that cannot be used -/

/-- The fault is that of the first source that cannot be used. -/
def FailsFirst (reader : Reader) (sources : List Source) (fault : Fault) : Prop :=
  ∃ earlier source later, sources = earlier ++ source :: later ∧
    (∀ other ∈ earlier, other.Usable reader) ∧ source.Blamed reader fault

/-- Going over a list ends with the fault of the first element that has one. -/
theorem mapM_of_first_error {α β : Type} {f : α → Except Fault β} {earlier later : List α} {a : α}
    {fault : Fault} (hearlier : ∀ x ∈ earlier, ∃ b, f x = .ok b) (ha : f a = .error fault) :
    (earlier ++ a :: later).mapM f = .error fault := by
  induction earlier with
  | nil => rw [List.nil_append, List.mapM_cons, ha, except_bind_error]
  | cons x rest ih =>
    obtain ⟨b, hb⟩ := hearlier x (List.mem_cons_self ..)
    rw [List.cons_append, List.mapM_cons, hb, except_bind_ok,
      ih fun y hy => hearlier y (List.mem_cons_of_mem x hy), except_bind_error]

variable {reader : Reader} {sources : List Source}

/-- Among sources that cannot all be used there is a first. -/
theorem exists_failsFirst (h : ∃ source ∈ sources, ¬ source.Usable reader) :
    ∃ fault, FailsFirst reader sources fault := by
  induction sources with
  | nil =>
    obtain ⟨source, hsource, -⟩ := h
    cases hsource
  | cons first rest ih =>
    cases hfirst : first.check reader with
    | error fault => exact ⟨fault, [], first, rest, rfl, by simp, Source.check_error_iff.mp hfirst⟩
    | ok _ =>
      have husable : first.Usable reader := Source.check_ok_iff.mp hfirst
      obtain ⟨source, hsource, hbad⟩ := h
      rcases List.mem_cons.mp hsource with rfl | hrest
      · exact absurd husable hbad
      · obtain ⟨fault, earlier, other, later, rfl, hearlier, hother⟩ := ih ⟨source, hrest, hbad⟩
        exact ⟨fault, first :: earlier, other, later, rfl,
          List.forall_mem_cons.mpr ⟨husable, hearlier⟩, hother⟩

/-- There is only one first fault. -/
theorem FailsFirst.fault_eq {fault other : Fault} (h : FailsFirst reader sources fault)
    (hother : FailsFirst reader sources other) : fault = other := by
  have hmapM : ∀ {found : Fault}, FailsFirst reader sources found →
      sources.mapM (·.check reader) = .error found := by
    rintro found ⟨earlier, source, later, rfl, hearlier, hblamed⟩
    exact mapM_of_first_error
      (fun source hsource => ⟨(), Source.check_ok_iff.mpr (hearlier source hsource)⟩)
      (Source.check_error_iff.mpr hblamed)
  exact Except.error.inj ((hmapM h).symm.trans (hmapM hother))

end StackTree
