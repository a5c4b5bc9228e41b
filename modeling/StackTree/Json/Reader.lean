import StackTree.Json.Token

/-!
# Reading JSON values

The reader takes one token at a time and keeps a stack of the arrays and objects that are still
open, so it reads in one pass over the tokens, whatever the depth.

## Main definitions

* `Json.Reading.step`: what a token does to what has been read so far.
* `Json.read`: the value that a text holds.
-/

namespace StackTree.Json

/-- An array or object that is still open. -/
inductive Frame where
  /-- An array with the items so far, the last one first. -/
  | array (items : List Value)
  /-- An object with the fields so far, the last one first. -/
  | object (fields : List (Text × Value))
  /-- An object that waits for the value of a field. -/
  | field (fields : List (Text × Value)) (name : Text)
deriving Repr

/-- What may come next. -/
inductive Expectation where
  /-- A value. -/
  | value
  /-- The first item of an array, or its end. -/
  | firstItem
  /-- The first name in an object, or its end. -/
  | firstName
  /-- A further name in an object. -/
  | name
  /-- The colon after a name. -/
  | colon
  /-- A comma or the end of an array or object. -/
  | separator
  /-- Nothing: the value is complete. -/
  | nothing (v : Value)
deriving Repr

/-- What has been read so far. -/
structure Reading where
  /-- The arrays and objects that are still open, the innermost first. -/
  frames : List Frame
  /-- What may come next. -/
  expects : Expectation
deriving Repr

namespace Reading

/-- Nothing has been read. -/
def start : Reading := ⟨[], .value⟩

/-- Puts a complete value where the innermost open array or object takes it. -/
def supply (frames : List Frame) (v : Value) : Option Reading :=
  match frames with
  | [] => some ⟨[], .nothing v⟩
  | .array items :: rest => some ⟨.array (v :: items) :: rest, .separator⟩
  | .field fields name :: rest => some ⟨.object ((name, v) :: fields) :: rest, .separator⟩
  | .object _ :: _ => none

/-- Closes the innermost open array. -/
def closeArray : List Frame → Option Reading
  | .array items :: rest => supply rest (.array items.reverse)
  | _ => none

/-- Closes the innermost open object. -/
def closeObject : List Frame → Option Reading
  | .object fields :: rest => supply rest (.object fields.reverse)
  | _ => none

/-- Takes the first token of a value. -/
def takeValue (frames : List Frame) : Token → Option Reading
  | .null => supply frames .null
  | .bool b => supply frames (.bool b)
  | .integer i => supply frames (.integer i)
  | .real n => supply frames (.real n)
  | .text t => supply frames (.text t)
  | .openArray => some ⟨.array [] :: frames, .firstItem⟩
  | .openObject => some ⟨.object [] :: frames, .firstName⟩
  | _ => none

/-- Takes the first token of the first item of an array, or the end of the array. -/
def takeFirstItem (frames : List Frame) (t : Token) : Option Reading :=
  if t = .closeArray then closeArray frames else takeValue frames t

/-- Takes the name of a field. -/
def takeName : List Frame → Token → Option Reading
  | .object fields :: rest, .text name => some ⟨.field fields name :: rest, .colon⟩
  | _, _ => none

/-- Takes the first name in an object, or the end of the object. -/
def takeFirstName (frames : List Frame) (t : Token) : Option Reading :=
  if t = .closeObject then closeObject frames else takeName frames t

/-- Takes the colon after a name. -/
def takeColon (frames : List Frame) (t : Token) : Option Reading :=
  if t = .colon then some ⟨frames, .value⟩ else none

/-- Takes a comma, or the end of the innermost open array or object. -/
def takeSeparator : List Frame → Token → Option Reading
  | .array items :: rest, .comma => some ⟨.array items :: rest, .value⟩
  | .object fields :: rest, .comma => some ⟨.object fields :: rest, .name⟩
  | frames, .closeArray => closeArray frames
  | frames, .closeObject => closeObject frames
  | _, _ => none

/-- Takes one token. -/
def step (r : Reading) (t : Token) : Option Reading :=
  match r.expects with
  | .value => takeValue r.frames t
  | .firstItem => takeFirstItem r.frames t
  | .firstName => takeFirstName r.frames t
  | .name => takeName r.frames t
  | .colon => takeColon r.frames t
  | .separator => takeSeparator r.frames t
  | .nothing _ => none

/-- Takes some tokens in order. -/
def run (r : Reading) (ts : List Token) : Option Reading := ts.foldlM step r

/-- The value, if it is complete. -/
def result? (r : Reading) : Option Value :=
  match r.expects with
  | .nothing v => some v
  | _ => none

@[simp] theorem run_nil (r : Reading) : r.run [] = some r := rfl

@[simp] theorem run_cons (r : Reading) (t : Token) (ts : List Token) :
    r.run (t :: ts) = (r.step t).bind (·.run ts) := rfl

end Reading

/-- The value that some tokens make up. -/
def readTokens (ts : List Token) : Option Value := (Reading.start.run ts).bind (·.result?)

/-- The value that a text holds. -/
def read (text : String) : Option Value := (scan text).bind readTokens

end StackTree.Json
