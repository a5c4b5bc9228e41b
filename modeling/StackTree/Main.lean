import StackTree.Command.Run

/-!
# The program

Reads the arguments, fetches the files that the command names, and puts what the command emits where
it goes. All decisions are `Command.parse` and `Command.emit`.
-/

namespace StackTree

/-- The content of a file, or the fault of reading it. -/
def fetch (path : String) : IO (Except Fault String) := do
  match Files.refusal? path with
  | some fault => return .error fault
  | none =>
    try
      return .ok (← IO.FS.readFile path)
    catch error =>
      return .error (.io (toString error))

/-- Tells of a fault and answers the exit code of a run that failed. -/
def complain (fault : Fault) : IO UInt32 := do
  IO.eprintln ("Error: " ++ fault.code ++ "\n\n  " ++ fault.message)
  return 1

/-- Puts an emission where it goes. -/
def put (emission : Command.Emission) : IO UInt32 := do
  match emission.target with
  | none =>
    IO.print emission.text
    return 0
  | some path =>
    match Files.refusal? path with
    | some fault => complain fault
    | none =>
      try
        IO.FS.writeFile path emission.text
        return 0
      catch error =>
        complain (.io (toString error))

/-- Runs a command on the file system. -/
def runCommand (command : Command) : IO UInt32 := do
  let table ← command.sources.mapM fun path => do return (path, ← fetch path)
  match command.emit { file := fun path => (table.lookup path).getD (.error Files.notFound) } with
  | .ok emission => put emission
  | .error fault => complain fault

end StackTree

/-- Runs the command that the arguments ask for. -/
def main (arguments : List String) : IO UInt32 :=
  match StackTree.Command.parse arguments with
  | .ok command => StackTree.runCommand command
  | .error refusal => return UInt32.ofNat refusal.exitCode
