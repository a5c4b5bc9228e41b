/-!
# Command-line arguments

There are two commands: one nests the flat code of some files, the other shows the flat code of one
file. Arguments are taken from left to right. The value of an option may follow as the next
argument, or be attached with an equals sign, or, for a one-letter option, directly. After `--`
every argument is a plain one.

An option that waits for its value, and a run of plain arguments, are settled only when the next
known option comes up or the arguments end; their own refusals come up then.

## Main definitions

* `Refusal`: why arguments are not a command, requests for help included.
* `Command`: what the program is asked to do.
* `Command.parse`: the command that some arguments ask for.
-/

namespace StackTree

/-! ## Refusals -/

/-- Why arguments do not make up a command that can run. -/
inductive Refusal where
  /-- Help was asked for. -/
  | displayHelp
  /-- The version was asked for. -/
  | displayVersion
  /-- There is no command at all. -/
  | helpOnMissing
  /-- An option or a plain argument is not known. -/
  | unknownArgument
  /-- The command is not known. -/
  | invalidSubcommand
  /-- An argument that has to be there is missing. -/
  | missingRequired
  /-- A value is missing or empty. -/
  | invalidValue
  /-- An option that takes no value has one. -/
  | tooManyValues
  /-- An option is given twice. -/
  | argumentConflict
deriving DecidableEq, Repr

/-- The exit code of a refusal: a request that was met is no failure. -/
def Refusal.exitCode : Refusal → Nat
  | displayHelp | displayVersion => 0
  | _ => 2

/-! ## Options -/

/-- The options of the commands. -/
inductive Flag where
  | config
  | output
  | fold
  | noVerify
  | stats
  | help
deriving DecidableEq, Repr

namespace Flag

/-- The long name, after two hyphens. -/
def long : Flag → String
  | config => "config"
  | output => "output"
  | fold => "fold"
  | noVerify => "no-verify"
  | stats => "stats"
  | help => "help"

/-- The one-letter name, after one hyphen, if there is one. -/
def short? : Flag → Option Char
  | config => some 'c'
  | output => some 'o'
  | help => some 'h'
  | _ => none

/-- Whether the option takes a value. -/
def takesValue : Flag → Bool
  | config | output => true
  | _ => false

end Flag

/-- What a command takes. -/
structure ArgumentShape where
  /-- Its options. -/
  flags : List Flag
  /-- Whether it takes more than one plain argument. -/
  manyInputs : Bool
deriving DecidableEq, Repr

/-- The shape of the command that nests. -/
def inlineShape : ArgumentShape :=
  { flags := [.config, .fold, .noVerify, .stats, .output, .help], manyInputs := true }

/-- The shape of the command that shows. -/
def showShape : ArgumentShape := { flags := [.help], manyInputs := false }

/-! ## Gathering arguments -/

/-- What was taken in last and is not settled yet. -/
inductive Pending where
  | nothing
  /-- Plain arguments in order. -/
  | inputs (values : List String)
  /-- An option that takes a value, and the value if it came. -/
  | option (flag : Flag) (value : Option String)
deriving DecidableEq, Repr

/-- The arguments of a command taken in so far. -/
structure Gathered where
  /-- Plain arguments in order. -/
  inputs : List String := []
  /-- Options with their values. -/
  values : List (Flag × String) := []
  /-- Options without values. -/
  switches : List Flag := []
  /-- What is not settled yet. -/
  pending : Pending := .nothing
deriving DecidableEq, Repr

namespace Gathered

/-- Settles an option with its value. Repetition is refused before an empty value is. -/
def settleOption (g : Gathered) (flag : Flag) (value : String) : Except Refusal Gathered :=
  if g.values.any (·.1 == flag) then .error .argumentConflict
  else if value.isEmpty then .error .invalidValue
  else .ok { g with values := g.values ++ [(flag, value)] }

/-- Settles what is not settled yet. -/
def settle (g : Gathered) : Except Refusal Gathered :=
  let settled := { g with pending := .nothing }
  match g.pending with
  | .nothing => .ok settled
  | .inputs values =>
    if values.any String.isEmpty then .error .invalidValue
    else .ok { settled with inputs := g.inputs ++ values }
  | .option _ none => .error .invalidValue
  | .option flag (some value) => settled.settleOption flag value

/-- Takes an option without a value. -/
def takeSwitch (g : Gathered) (flag : Flag) : Except Refusal Gathered := do
  let g ← g.settle
  if flag = .help then .error .displayHelp
  else if flag ∈ g.switches then .error .argumentConflict
  else .ok { g with switches := g.switches ++ [flag] }

/-- Takes an option that takes a value, with the value that is attached to it, if one is. -/
def takeOption (g : Gathered) (flag : Flag) (attached : Option String) :
    Except Refusal Gathered := do
  let g ← g.settle
  match attached with
  | some value => g.settleOption flag value
  | none => .ok { g with pending := .option flag none }

/-- Whether a plain argument was taken. -/
def hasInput (g : Gathered) : Bool :=
  !g.inputs.isEmpty || match g.pending with
    | .inputs _ => true
    | _ => false

/-- Takes a plain argument. -/
def takeInput (shape : ArgumentShape) (g : Gathered) (value : String) :
    Except Refusal Gathered := do
  match g.pending with
  | .inputs values =>
    if shape.manyInputs then .ok { g with pending := .inputs (values ++ [value]) }
    else .error .unknownArgument
  | _ =>
    if g.hasInput && !shape.manyInputs then .error .unknownArgument
    else do
      let g ← g.settle
      .ok { g with pending := .inputs [value] }

/-- Takes an argument that starts with two hyphens; its name ends at an equals sign. -/
def takeLong (shape : ArgumentShape) (g : Gathered) (body : List Char) :
    Except Refusal Gathered :=
  let name := String.ofList (body.takeWhile (· != '='))
  let attached := match body.dropWhile (· != '=') with
    | [] => none
    | _ :: value => some (String.ofList value)
  match shape.flags.find? (·.long == name) with
  | none => .error .unknownArgument
  | some flag =>
    if flag.takesValue then g.takeOption flag attached
    else if attached.isSome then .error .tooManyValues
    else g.takeSwitch flag

/-- Takes one-letter options that stand behind one hyphen. -/
def takeShort (shape : ArgumentShape) (g : Gathered) : List Char → Except Refusal Gathered
  | [] => .ok g
  | c :: rest =>
    match shape.flags.find? (·.short? == some c) with
    | none => .error .unknownArgument
    | some flag =>
      if flag.takesValue then
        g.takeOption flag <| match rest with
          | [] => none
          | '=' :: value => some (String.ofList value)
          | value => some (String.ofList value)
      else do
        (← g.takeSwitch flag).takeShort shape rest

/-- Takes an argument that is no option: the value that an option waits for, or a plain one. -/
def takePlain (shape : ArgumentShape) (g : Gathered) (value : String) :
    Except Refusal Gathered :=
  match g.pending with
  | .option flag none => .ok { g with pending := .option flag (some value) }
  | _ => g.takeInput shape value

/-- Takes an argument before `--`. -/
def take (shape : ArgumentShape) (g : Gathered) (argument : String) :
    Except Refusal Gathered :=
  match argument.toList with
  | '-' :: '-' :: body => g.takeLong shape body
  | '-' :: c :: rest => g.takeShort shape (c :: rest)
  | _ => g.takePlain shape argument

/-- Takes the arguments in order. -/
def takeAll (shape : ArgumentShape) (g : Gathered) : List String → Except Refusal Gathered
  | [] => .ok g
  | argument :: rest =>
    if argument = "--" then rest.foldlM (takeInput shape) g
    else do (← g.take shape argument).takeAll shape rest

end Gathered

/-- The arguments of a command, with at least one plain one. -/
def gather (shape : ArgumentShape) (arguments : List String) : Except Refusal Gathered := do
  let g ← Gathered.takeAll shape {} arguments
  let g ← g.settle
  if g.inputs.isEmpty then .error .missingRequired else .ok g

/-! ## Commands -/

/-- What the command that nests is to do. -/
structure InlineRequest where
  /-- The files with the flat code. -/
  inputs : List String
  /-- The file with the settings. -/
  config : Option String := none
  /-- Fold constants whatever the settings say. -/
  fold : Bool := false
  /-- Leave the audits out whatever the settings say. -/
  noVerify : Bool := false
  /-- Add the reports to the output. -/
  stats : Bool := false
  /-- The file that the output goes to. -/
  output : Option String := none
deriving DecidableEq, Repr

/-- What the program is asked to do. -/
inductive Command where
  /-- Nest the flat code of some files. -/
  | inline (request : InlineRequest)
  /-- Show the flat code of a file as it is. -/
  | show (input : String)
deriving DecidableEq, Repr

/-- The request that some arguments make. -/
def InlineRequest.ofGathered (g : Gathered) : InlineRequest where
  inputs := g.inputs
  config := g.values.lookup .config
  fold := g.switches.contains .fold
  noVerify := g.switches.contains .noVerify
  stats := g.switches.contains .stats
  output := g.values.lookup .output

namespace Command

/-- The names that can stand first. -/
inductive Verb where
  | inline
  | show
  | help
deriving DecidableEq, Repr

/-- The command word of that name. -/
def Verb.ofName? : String → Option Verb
  | "inline" => some .inline
  | "show" => some .show
  | "help" => some .help
  | _ => none

/-- The request for help on what the arguments name, which is one command word at most. -/
def parseHelp : List String → Refusal
  | [] => .displayHelp
  | [name] => if (Verb.ofName? name).isSome then .displayHelp else .invalidSubcommand
  | _ => .invalidSubcommand

/-- The refusal of a first argument that starts with two hyphens. -/
def refuseLong (body : List Char) : Refusal :=
  let name := body.takeWhile (· != '=')
  let refusal? : Option Refusal :=
    if name = "help".toList then some .displayHelp
    else if name = "version".toList then some .displayVersion
    else none
  match refusal? with
  | none => .unknownArgument
  | some refusal => if body.contains '=' then .tooManyValues else refusal

/-- The refusal of a first argument that is no command word. -/
def refuseFirst (argument : String) (rest : List String) : Refusal :=
  match argument.toList, rest with
  | ['-', '-'], [] => .helpOnMissing
  | ['-', '-'], next :: _ =>
    if (Verb.ofName? next).isSome then .unknownArgument else .invalidSubcommand
  | '-' :: '-' :: body, _ => refuseLong body
  | '-' :: 'h' :: _, _ => .displayHelp
  | '-' :: 'V' :: _, _ => .displayVersion
  | '-' :: _ :: _, _ => .unknownArgument
  | _, _ => .invalidSubcommand

/-- The command that some arguments ask for. -/
def parse : List String → Except Refusal Command
  | [] => .error .helpOnMissing
  | first :: rest =>
    match Verb.ofName? first with
    | some .inline => do return .inline (.ofGathered (← gather inlineShape rest))
    | some .show => do
      match (← gather showShape rest).inputs with
      | [input] => .ok (.show input)
      | _ => .error .missingRequired
    | some .help => .error (parseHelp rest)
    | none => .error (refuseFirst first rest)

end Command

end StackTree
