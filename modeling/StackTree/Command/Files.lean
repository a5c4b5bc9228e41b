import StackTree.Fault

/-!
# Files

The program reads files as texts and replaces files as a whole. A `FileSystem` can do that much,
whatever its states are.

`Files` is a file system: a tree of directories and files, by their paths from the root. Paths are
followed step by step: a step needs a directory to start from, `.` stays and `..` goes up, at the
root nowhere. A path that is written from the root starts there, any other where the program was
started. A directory is there if it is listed, if something lies in it, or if the program was
started in it or below it. A name has a greatest length, and so has a written path; a longer name
stops the walk only where it comes up, a longer path is not followed at all.

A file may hold bytes that are no text, and the program may lack the right to read it, to write to
it, or to create one in a directory. Links and devices are not kept, and every directory may be
passed through.

## Main definitions

* `FileSystem`: reading and writing whole files.
* `Files.refusal?`: why a written path is not followed at all.
* `Files.locate`: what a path leads to.
* `Files.read`, `Files.write`: reading and writing a whole file, with the faults of a file system.
-/

namespace StackTree

/-- A file system by its states. Paths are as they are written in arguments. -/
class FileSystem (σ : Type) where
  /-- The text of the file that a path leads to. -/
  read (files : σ) (path : String) : Except Fault String
  /-- Puts a text where a path leads, in place of all that the file holds. A file that is not there
  is created. -/
  write (path text : String) : EStateM Fault σ Unit

/-! ## A tree of files -/

/-- A path from the root, name by name. -/
abbrev Path := List String

/-- A file. -/
structure File where
  /-- What the file holds, unless its bytes are no text. -/
  text? : Option String
  /-- Whether the program may read it. -/
  readable : Bool := true
  /-- Whether the program may write to it. -/
  writable : Bool := true
deriving DecidableEq, Repr

/-- What stands at a path. -/
inductive Entry where
  /-- A directory, and whether the program may create files in it. -/
  | directory (writable : Bool)
  | file (file : File)
deriving DecidableEq, Repr

namespace Entry

/-- A text stands for a file that holds it and that the program may read and replace. -/
instance : Coe String Entry := ⟨fun text => .file { text? := some text }⟩

/-- Whether a directory stands there. -/
def isDirectory : Entry → Bool
  | directory _ => true
  | file _ => false

end Entry

/-- The directory that the program is started in, unless another one is named. -/
def home : Path := ["home"]

/-- A tree of files and directories. -/
structure Files where
  /-- What stands where; no path repeats. -/
  entries : List (Path × Entry)
  /-- The directory that the program was started in. -/
  here : Path := home
deriving DecidableEq, Repr

/-- What a path leads to. -/
inductive Place where
  /-- A directory. -/
  | directory
  /-- A file. -/
  | file (path : Path) (file : File)
  /-- Nothing, in a directory that exists. -/
  | vacant (path : Path)
  /-- Nothing, and the directory does not exist either. -/
  | missing
  /-- A way through a file. -/
  | blocked
  /-- A name that is too long to be one, in a directory that exists. -/
  | tooLong (last : Bool)
deriving DecidableEq, Repr

namespace Files

/-! ### Following paths -/

/--
The names between the slashes of a path, where the name read so far is written backwards. Slashes in
a row count once.
-/
def namesFrom (name : List Char) : List Char → List String
  | [] => if name.isEmpty then [] else [String.ofList name.reverse]
  | c :: rest =>
    if c = '/' then
      if name.isEmpty then namesFrom [] rest
      else String.ofList name.reverse :: namesFrom [] rest
    else
      namesFrom (c :: name) rest

/-- The names that a written path is made of. -/
def names (path : String) : List String := namesFrom [] path.toList

/-- The names along the way to a file of that name in a directory. -/
def steps (name : String) (directory : Path := home) : Path := directory ++ names name

/-- Whether a path is written from the root. -/
def fromRoot (path : String) : Bool := path.toList.head? == some '/'

/-- Whether a path is written with a slash at its end, so that it has to lead to a directory. -/
def endsInSlash (path : String) : Bool := path.toList.getLast? == some '/'

/-- Whether a name has more bytes than the name of a file may have. -/
def isTooLong (name : String) : Bool := name.utf8ByteSize > 255

/-- What is listed at a path. -/
def lookup (files : Files) (path : Path) : Option Entry := files.entries.lookup path

/-- Whether a directory stands at a path. -/
def hasDirectory (files : Files) (path : Path) : Bool :=
  path.isPrefixOf files.here || files.entries.any fun (other, entry) =>
    path.isPrefixOf other && (other != path || entry.isDirectory)

/-- Follows steps from a directory. -/
def walk (files : Files) (here : Path) : List String → Place
  | [] => .directory
  | "." :: rest => files.walk here rest
  | ".." :: rest => files.walk here.dropLast rest
  | step :: rest =>
    let next := here ++ [step]
    if isTooLong step then .tooLong rest.isEmpty
    else if files.hasDirectory next then files.walk next rest
    else
      match files.lookup next with
      | some (.file file) => if rest.isEmpty then .file next file else .blocked
      | _ => if rest.isEmpty then .vacant next else .missing

/-- What a written path leads to. -/
def locate (files : Files) (path : String) : Place :=
  if path.isEmpty then .missing
  else files.walk (if fromRoot path then [] else files.here) (names path)

/-! ### Faults -/

/-- The fault of a path that leads to nothing. -/
def notFound : Fault := .io "No such file or directory (os error 2)"

/-- The fault of a file that the program may not read, write to or create. -/
def permissionDenied : Fault := .io "Permission denied (os error 13)"

/-- The fault of a way through a file. -/
def notADirectory : Fault := .io "Not a directory (os error 20)"

/-- The fault of a directory where a file should be. -/
def isADirectory : Fault := .io "Is a directory (os error 21)"

/-- The fault of a name or a path that is too long. -/
def nameTooLong : Fault := .io "File name too long (os error 36)"

/-- The fault of a file whose bytes are no text. -/
def notText : Fault := .io "stream did not contain valid UTF-8"

/-- The fault of a path with a null character in it. -/
def nullInName : Fault := .io "file name contained an unexpected NUL byte"

/--
Why a written path is not followed at all: a null character would end it early, and it may have no
more than 4095 bytes.
-/
def refusal? (path : String) : Option Fault :=
  if path.toList.contains (Char.ofNat 0) then some nullInName
  else if path.utf8ByteSize > 4095 then some nameTooLong
  else none

/-! ### Reading and writing -/

/-- The text of the file that a path leads to. -/
def read (files : Files) (path : String) : Except Fault String :=
  match refusal? path with
  | some fault => .error fault
  | none =>
    match files.locate path with
    | .directory => .error isADirectory
    | .file _ file =>
      if endsInSlash path then .error notADirectory
      else if file.readable then
        match file.text? with
        | some text => .ok text
        | none => .error notText
      else .error permissionDenied
    | .vacant _ | .missing => .error notFound
    | .blocked => .error notADirectory
    | .tooLong _ => .error nameTooLong

/-- The tree with another file at a path. -/
def put (files : Files) (path : Path) (file : File) : Files :=
  { files with entries := files.entries.filter (·.1 != path) ++ [(path, .file file)] }

/-- Whether the program may create files in a directory. -/
def mayCreateIn (files : Files) (directory : Path) : Bool :=
  files.lookup directory != some (.directory false)

/--
The tree after a whole file was written, which is created if it was not there. A slash after the
last name is a fault of its own, whatever the name.
-/
def write (files : Files) (path text : String) : Except Fault Files :=
  match refusal? path with
  | some fault => .error fault
  | none =>
    match files.locate path with
    | .directory => .error isADirectory
    | .file place file =>
      if endsInSlash path then .error isADirectory
      else if file.writable then .ok (files.put place { file with text? := some text })
      else .error permissionDenied
    | .vacant place =>
      if endsInSlash path then .error isADirectory
      else if files.mayCreateIn place.dropLast then .ok (files.put place { text? := some text })
      else .error permissionDenied
    | .missing => .error notFound
    | .blocked => .error notADirectory
    | .tooLong last => .error (if last && endsInSlash path then isADirectory else nameTooLong)

/-- A tree of files is a file system. It stays as it is when a file cannot be written. -/
instance : FileSystem Files where
  read := read
  write path text := fun files =>
    match files.write path text with
    | .ok after => .ok () after
    | .error fault => .error fault files

/-- The texts that were created or changed since then in the directory that the program was started
in, with their paths from there. -/
def changedSince (files old : Files) : List (Path × String) :=
  files.entries.filterMap fun (path, entry) =>
    match entry with
    | .file { text? := some text, .. } =>
      if files.here.isPrefixOf path && old.lookup path != some entry then
        some (path.drop files.here.length, text)
      else none
    | _ => none

end Files

end StackTree
