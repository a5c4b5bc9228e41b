import StackTree.Command.Arguments
import StackTree.Proofs.Runs
import StackTree.Proofs.Spans

/-!
# Requests and their arguments

The same request can be made in many ways. `InlineRequest.arguments` spells it out in one of them:
each option in full with its value attached, then `--`, then the files. Reading these arguments
gives the request back. What cannot be asked for at all is a request without a file or with an empty
name, because an empty value is refused wherever it stands.

## Main definitions

* `InlineRequest.arguments`: the arguments that spell a request out.
* `InlineRequest.Named`: a request without empty names, for some file.

## Main results

* `Command.parse_inline_arguments`: reading them gives the request back.
* `Command.named_of_parse`: every request that arguments make is named.
-/

namespace StackTree

open Runs Spans

/-! ## Spelling out -/

/-- The option in full, without a value. -/
def Flag.word (flag : Flag) : String := "--" ++ flag.long

/-- The option in full, with its value attached. -/
def Flag.assign (flag : Flag) (value : String) : String := flag.word ++ "=" ++ value

/-- The arguments that spell a request out. -/
def InlineRequest.arguments (request : InlineRequest) : List String :=
  "inline" :: (request.config.toList.map Flag.config.assign
    ++ ((if request.fold then [Flag.fold.word] else [])
    ++ ((if request.noVerify then [Flag.noVerify.word] else [])
    ++ ((if request.stats then [Flag.stats.word] else [])
    ++ (request.output.toList.map Flag.output.assign ++ "--" :: request.inputs)))))

/-- The request is for some file, and no name in it is empty. -/
structure InlineRequest.Named (request : InlineRequest) : Prop where
  inputs_ne_nil : request.inputs ≠ []
  inputs : ∀ path ∈ request.inputs, path.isEmpty = false
  config : ∀ path, request.config = some path → path.isEmpty = false
  output : ∀ path, request.output = some path → path.isEmpty = false

namespace Gathered

variable {g : Gathered} {flag : Flag} {value : String} {rest : List String}

/-! ## Reading what is spelled out -/

theorem settle_of_nothing (h : g.pending = .nothing) : g.settle = .ok g := by
  obtain ⟨inputs, values, switches, pending⟩ := g
  obtain rfl : pending = .nothing := h
  rfl

theorem long_stops (flag : Flag) : ∀ c ∈ flag.long.toList, (c != '=') = true := by
  cases flag <;> simp [Flag.long]

theorem find?_long (flag : Flag) : inlineShape.flags.find? (·.long == flag.long) = some flag := by
  cases flag <;> decide

theorem takeLong_word (h : flag.takesValue = false) (g : Gathered) :
    g.takeLong inlineShape flag.long.toList = g.takeSwitch flag := by
  have hstops : Stops (· != '=') [] := by simp [Stops]
  have hname := takeWhile_span (long_stops flag) hstops
  have hafter := dropWhile_span (long_stops flag) hstops
  rw [List.append_nil] at hname hafter
  simp [takeLong, hname, hafter, find?_long, h]

theorem takeLong_assign (h : flag.takesValue = true) (g : Gathered) (value : String) :
    g.takeLong inlineShape (flag.long.toList ++ '=' :: value.toList) =
      g.takeOption flag (some value) := by
  have hstops : Stops (· != '=') ('=' :: value.toList) := stops_cons rfl
  simp [takeLong, takeWhile_span (long_stops flag) hstops, dropWhile_span (long_stops flag) hstops,
    find?_long, h]

theorem toList_word (flag : Flag) : flag.word.toList = '-' :: '-' :: flag.long.toList := by
  rw [Flag.word, String.toList_append]
  rfl

theorem toList_assign (flag : Flag) (value : String) :
    (flag.assign value).toList = '-' :: '-' :: (flag.long.toList ++ '=' :: value.toList) := by
  rw [Flag.assign, String.toList_append, String.toList_append, toList_word, List.append_assoc]
  rfl

theorem word_ne (flag : Flag) : flag.word ≠ "--" := by
  cases flag <;> decide

theorem assign_ne (flag : Flag) (value : String) : flag.assign value ≠ "--" := by
  intro h
  have hlist := congrArg String.toList h
  rw [toList_assign] at hlist
  simp at hlist

/-- An option without a value is taken, if it was not taken before. -/
theorem takeAll_word (h : flag.takesValue = false) (hhelp : flag ≠ .help)
    (hpending : g.pending = .nothing) (hfresh : flag ∉ g.switches) :
    takeAll inlineShape g (flag.word :: rest) =
      takeAll inlineShape { g with switches := g.switches ++ [flag] } rest := by
  rw [takeAll, if_neg (word_ne flag), take, toList_word]
  simp only [takeLong_word h, takeSwitch, settle_of_nothing hpending, except_bind_ok, if_neg hhelp,
    if_neg hfresh]

/-- An option is taken with its value, if it was not taken before and the value is not empty. -/
theorem takeAll_assign (h : flag.takesValue = true) (hpending : g.pending = .nothing)
    (hfresh : g.values.any (·.1 == flag) = false) (hvalue : value.isEmpty = false) :
    takeAll inlineShape g (flag.assign value :: rest) =
      takeAll inlineShape { g with values := g.values ++ [(flag, value)] } rest := by
  rw [takeAll, if_neg (assign_ne flag value), take, toList_assign]
  simp only [takeLong_assign h, takeOption, settleOption, settle_of_nothing hpending,
    except_bind_ok, hfresh, hvalue, Bool.false_eq_true, if_false]

theorem takeAll_word_if (on : Bool) (h : flag.takesValue = false) (hhelp : flag ≠ .help)
    (hpending : g.pending = .nothing) (hfresh : flag ∉ g.switches) :
    takeAll inlineShape g ((if on then [flag.word] else []) ++ rest) =
      takeAll inlineShape { g with switches := g.switches ++ if on then [flag] else [] } rest := by
  cases on with
  | true => exact takeAll_word h hhelp hpending hfresh
  | false => simp

theorem takeAll_assign_if (value? : Option String) (h : flag.takesValue = true)
    (hpending : g.pending = .nothing) (hfresh : g.values.any (·.1 == flag) = false)
    (hvalue : ∀ value, value? = some value → value.isEmpty = false) :
    takeAll inlineShape g (value?.toList.map flag.assign ++ rest) =
      takeAll inlineShape { g with values := g.values ++ value?.toList.map (flag, ·) } rest := by
  cases value? with
  | none => simp
  | some value => exact takeAll_assign h hpending hfresh (hvalue value rfl)

/-- Plain arguments in a row are kept together. -/
theorem foldlM_takeInput {taken inputs : List String} (h : g.pending = .inputs taken) :
    inputs.foldlM (takeInput inlineShape) g =
      .ok { g with pending := .inputs (taken ++ inputs) } := by
  induction inputs generalizing g taken with
  | nil =>
    rw [List.append_nil, ← h]
    rfl
  | cons path rest ih =>
    have hfirst : takeInput inlineShape g path =
        .ok { g with pending := .inputs (taken ++ [path]) } := by
      simp [takeInput, h, inlineShape]
    rw [List.foldlM_cons, hfirst, except_bind_ok, ih rfl, List.append_assoc]
    rfl

theorem takeAll_inputs {path : String} {inputs : List String} (hpending : g.pending = .nothing) :
    takeAll inlineShape g ("--" :: path :: inputs) =
      .ok { g with pending := .inputs (path :: inputs) } := by
  have hfirst : takeInput inlineShape g path = .ok { g with pending := .inputs [path] } := by
    simp [takeInput, hpending, settle_of_nothing hpending, inlineShape]
  rw [takeAll, if_pos rfl, List.foldlM_cons, hfirst, except_bind_ok, foldlM_takeInput rfl]
  rfl

end Gathered

open Gathered

/-- What is gathered from the arguments that spell a request out. -/
def InlineRequest.gathered (request : InlineRequest) : Gathered where
  inputs := request.inputs
  values := request.config.toList.map (.config, ·) ++ request.output.toList.map (.output, ·)
  switches := (if request.fold then [.fold] else [])
    ++ (if request.noVerify then [.noVerify] else []) ++ if request.stats then [.stats] else []

theorem InlineRequest.ofGathered_gathered (request : InlineRequest) :
    InlineRequest.ofGathered request.gathered = request := by
  obtain ⟨inputs, config, fold, noVerify, stats, output⟩ := request
  cases config <;> cases output <;> cases fold <;> cases noVerify <;> cases stats <;> rfl

theorem gather_arguments {request : InlineRequest} (h : request.Named) :
    gather inlineShape request.arguments.tail = .ok request.gathered := by
  obtain ⟨inputs, config, fold, noVerify, stats, output⟩ := request
  obtain ⟨hne, hinputs, hconfig, houtput⟩ := h
  obtain ⟨path, rest, rfl⟩ := List.exists_cons_of_ne_nil hne
  have hnone : (path :: rest).any String.isEmpty = false := List.any_eq_false.mpr fun p hp => by
    simp [hinputs p hp]
  have hoption : (config.toList.map ((Flag.config, ·) : String → Flag × String)).any
      (·.1 == .output) = false := by
    cases config <;> rfl
  have hverify : Flag.noVerify ∉ [] ++ if fold then [Flag.fold] else [] := by
    cases fold <;> decide
  have hstats : Flag.stats ∉ ([] ++ if fold then [Flag.fold] else []) ++
      if noVerify then [Flag.noVerify] else [] := by
    cases fold <;> cases noVerify <;> decide
  rw [gather, InlineRequest.arguments, List.tail_cons,
    takeAll_assign_if config rfl rfl rfl hconfig,
    takeAll_word_if fold rfl (by decide) rfl List.not_mem_nil,
    takeAll_word_if noVerify rfl (by decide) rfl hverify,
    takeAll_word_if stats rfl (by decide) rfl hstats,
    takeAll_assign_if output rfl rfl hoption houtput, takeAll_inputs rfl, except_bind_ok, settle]
  simp only [hnone, Bool.false_eq_true, if_false, except_bind_ok]
  rfl

/-- Reading the arguments that spell a request out gives the request back. -/
theorem Command.parse_inline_arguments {request : InlineRequest} (h : request.Named) :
    Command.parse request.arguments = .ok (.inline request) := by
  have hgather := gather_arguments h
  rw [InlineRequest.arguments, List.tail_cons] at hgather
  rw [InlineRequest.arguments, Command.parse]
  simp only [Verb.ofName?, hgather, except_bind_ok, except_pure, request.ofGathered_gathered]

/-! ## No name is empty -/

namespace Gathered

variable {g g' : Gathered} {flag : Flag} {value : String} {shape : ArgumentShape}

/-- No name that was settled is empty. -/
structure Named (g : Gathered) : Prop where
  inputs : ∀ path ∈ g.inputs, path.isEmpty = false
  values : ∀ entry ∈ g.values, entry.2.isEmpty = false

theorem named_new : Named {} := ⟨by simp, by simp⟩

/-- A step of gathering that does well leaves no empty name if the steps before it left none. -/
theorem named_of_bind {x : Except Refusal Gathered} {f : Gathered → Except Refusal Gathered}
    (h : (x >>= f) = .ok g') (hx : ∀ s, x = .ok s → s.Named)
    (hf : ∀ s, s.Named → f s = .ok g' → g'.Named) : g'.Named := by
  cases hrun : x with
  | error refusal =>
    rw [hrun] at h
    cases h
  | ok s =>
    rw [hrun] at h
    exact hf s (hx s hrun) h

theorem Named.settleOption (h : g.Named) (hrun : g.settleOption flag value = .ok g') :
    g'.Named := by
  unfold Gathered.settleOption at hrun
  split at hrun
  · cases hrun
  · split at hrun
    · cases hrun
    · next hvalue =>
      obtain rfl := Except.ok.inj hrun
      refine ⟨h.inputs, fun entry hentry => ?_⟩
      rcases List.mem_append.mp hentry with hold | hnew
      · exact h.values entry hold
      · rw [List.mem_singleton.mp hnew]
        exact Bool.not_eq_true _ ▸ hvalue

theorem Named.settle (h : g.Named) (hrun : g.settle = .ok g') : g'.Named := by
  unfold Gathered.settle at hrun
  split at hrun
  · obtain rfl := Except.ok.inj hrun
    exact ⟨h.inputs, h.values⟩
  · next values _ =>
    split at hrun
    · cases hrun
    · next hvalues =>
      obtain rfl := Except.ok.inj hrun
      refine ⟨fun path hpath => ?_, h.values⟩
      rcases List.mem_append.mp hpath with hold | hnew
      · exact h.inputs path hold
      · rw [Bool.not_eq_true, List.any_eq_false] at hvalues
        exact Bool.not_eq_true _ ▸ hvalues path hnew
  · cases hrun
  · exact Named.settleOption (g := { g with pending := .nothing }) ⟨h.inputs, h.values⟩ hrun

theorem Named.takeSwitch (h : g.Named) (hrun : g.takeSwitch flag = .ok g') : g'.Named := by
  refine named_of_bind hrun (fun _ hs => h.settle hs) fun s hs hnext => ?_
  split at hnext
  · cases hnext
  · split at hnext
    · cases hnext
    · obtain rfl := Except.ok.inj hnext
      exact ⟨hs.inputs, hs.values⟩

theorem Named.takeOption (h : g.Named) {attached : Option String}
    (hrun : g.takeOption flag attached = .ok g') : g'.Named := by
  refine named_of_bind hrun (fun _ hs => h.settle hs) fun s hs hnext => ?_
  cases attached with
  | some value => exact hs.settleOption hnext
  | none =>
    obtain rfl := Except.ok.inj hnext
    exact ⟨hs.inputs, hs.values⟩

theorem Named.takeInput (h : g.Named) (hrun : g.takeInput shape value = .ok g') : g'.Named := by
  unfold Gathered.takeInput at hrun
  split at hrun
  · split at hrun
    · obtain rfl := Except.ok.inj hrun
      exact ⟨h.inputs, h.values⟩
    · cases hrun
  · split at hrun
    · cases hrun
    · refine named_of_bind hrun (fun _ hs => h.settle hs) fun s hs hnext => ?_
      obtain rfl := Except.ok.inj hnext
      exact ⟨hs.inputs, hs.values⟩

theorem Named.takeLong (h : g.Named) {body : List Char}
    (hrun : g.takeLong shape body = .ok g') : g'.Named := by
  cases hflag : shape.flags.find? (·.long == String.ofList (body.takeWhile (· != '='))) with
  | none => simp [Gathered.takeLong, hflag] at hrun
  | some flag =>
    cases hattached : body.dropWhile (· != '=') with
    | nil =>
      simp only [Gathered.takeLong, hflag, hattached] at hrun
      split at hrun
      · exact h.takeOption hrun
      · exact h.takeSwitch hrun
    | cons c value =>
      simp only [Gathered.takeLong, hflag, hattached] at hrun
      split at hrun
      · exact h.takeOption hrun
      · cases hrun

theorem Named.takeShort (h : g.Named) {letters : List Char}
    (hrun : g.takeShort shape letters = .ok g') : g'.Named := by
  induction letters generalizing g with
  | nil =>
    obtain rfl := Except.ok.inj hrun
    exact h
  | cons c rest ih =>
    unfold Gathered.takeShort at hrun
    split at hrun
    · cases hrun
    · split at hrun
      · exact h.takeOption hrun
      · exact named_of_bind hrun (fun _ hs => h.takeSwitch hs) fun s hs hnext => ih hs hnext

theorem Named.take (h : g.Named) (hrun : g.take shape value = .ok g') : g'.Named := by
  unfold Gathered.take at hrun
  split at hrun
  · exact h.takeLong hrun
  · exact h.takeShort hrun
  · unfold takePlain at hrun
    split at hrun
    · obtain rfl := Except.ok.inj hrun
      exact ⟨h.inputs, h.values⟩
    · exact h.takeInput hrun

theorem Named.takeInputs (h : g.Named) {paths : List String}
    (hrun : paths.foldlM (Gathered.takeInput shape) g = .ok g') : g'.Named := by
  induction paths generalizing g with
  | nil =>
    obtain rfl := Except.ok.inj hrun
    exact h
  | cons path rest ih =>
    rw [List.foldlM_cons] at hrun
    exact named_of_bind hrun (fun _ hs => h.takeInput hs) fun s hs hnext => ih hs hnext

theorem Named.takeAll (h : g.Named) {arguments : List String}
    (hrun : g.takeAll shape arguments = .ok g') : g'.Named := by
  induction arguments generalizing g with
  | nil =>
    obtain rfl := Except.ok.inj hrun
    exact h
  | cons argument rest ih =>
    rw [Gathered.takeAll] at hrun
    split at hrun
    · exact h.takeInputs hrun
    · exact named_of_bind hrun (fun _ hs => h.take hs) fun s hs hnext => ih hs hnext

/-- What is gathered in the end has no empty name, and at least one plain one. -/
theorem named_of_gather {arguments : List String} (hrun : gather shape arguments = .ok g) :
    g.Named ∧ g.inputs ≠ [] := by
  unfold gather at hrun
  cases hall : takeAll shape {} arguments with
  | error refusal => simp [hall] at hrun
  | ok s =>
    cases hsettle : s.settle with
    | error refusal => simp [hall, hsettle] at hrun
    | ok s' =>
      simp only [hall, hsettle, except_bind_ok] at hrun
      split at hrun
      · cases hrun
      · next hinputs =>
        obtain rfl := Except.ok.inj hrun
        refine ⟨(named_new.takeAll hall).settle hsettle, ?_⟩
        rintro hnil
        simp [hnil] at hinputs

end Gathered

/-- Every request that arguments make is for some file, and no name in it is empty. -/
theorem Command.named_of_parse {arguments : List String} {request : InlineRequest}
    (h : Command.parse arguments = .ok (.inline request)) : request.Named := by
  unfold Command.parse at h
  split at h
  · cases h
  · next first rest =>
    split at h
    · cases hgather : gather inlineShape rest with
      | error refusal => simp [hgather] at h
      | ok g =>
        simp only [hgather, except_bind_ok, except_pure, Except.ok.injEq, inline.injEq] at h
        obtain rfl := h
        obtain ⟨hnamed, hne⟩ := named_of_gather hgather
        have hlookup : ∀ flag path, g.values.lookup flag = some path → path.isEmpty = false := by
          intro flag path hpath
          obtain ⟨before, after, heq, -⟩ := List.lookup_eq_some_iff.mp hpath
          exact hnamed.values (flag, path) (by simp [heq])
        exact ⟨hne, hnamed.inputs, hlookup _, hlookup _⟩
    · cases hgather : gather showShape rest with
      | error refusal => simp [hgather] at h
      | ok g =>
        simp only [hgather, except_bind_ok] at h
        split at h
        · cases h
        · cases h
    · cases h
    · cases h

end StackTree
