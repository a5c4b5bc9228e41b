import StackTree.FlatCode.Basic
import StackTree.Json.Reader
import StackTree.Json.Writer

/-!
# Flat code as a document

Flat code is kept as a JSON document: an object with the name and the entries, each entry an object
whose field `op` says which it is. An array in place of an object is read as well; it holds the same
things in a fixed order. Fields that mean nothing here are skipped.

An entry is kept as a value until its `op` is known, wherever that stands. So everything in an entry
has to be a value that can be kept, even what is skipped, while a skipped field of the document
itself only has to be well formed.

## Main definitions

* `FlatEntry.toJson`, `FlatCode.toJson`, `FlatCode.compact`: writing.
* `FlatEntry.ofJson?`, `FlatCode.ofJson?`, `FlatCode.parse`: reading.
-/

namespace StackTree

open Json (Value)

/-! ## Writing -/

/-- The entry as a value, with all its fields. -/
def FlatEntry.toJson : FlatEntry → Value
  | const value => .record [("op", .string "ldc_i4"), ("value", .integer value.toInt)]
  | load slot => .record [("op", .string "ld_loc"), ("local", .integer slot.toNat)]
  | peek => .record [("op", .string "peek")]
  | unary op => .record [("op", .string "unary"), ("operator", .string op.name)]
  | binary op => .record [("op", .string "binary"), ("operator", .string op.name)]
  | store slot => .record [("op", .string "st_loc"), ("local", .integer slot.toNat)]
  | call method args returnsValue =>
    .record [("op", .string "call"), ("method", .string method), ("args", .integer args.toNat),
      ("returns_value", .bool returnsValue)]
  | ret value => .record [("op", .string "ret"), ("value", .bool value)]

/-- The flat code as a value. -/
def FlatCode.toJson (code : FlatCode) : Value :=
  .record [("name", .string code.name), ("instructions", .array (code.entries.map (·.toJson)))]

/-- The flat code as a compact text. -/
def FlatCode.compact (code : FlatCode) : String := code.toJson.compact

/-! ## Reading fields -/

namespace Json

/-- The fields of an object whose names are all strings. -/
def namedFields? : List (Text × Value) → Option (List (String × Value))
  | [] => some []
  | (name, value) :: rest => do
    let name ← Text.toString? name
    return (name, value) :: (← namedFields? rest)

/-- Where the fields of a record stand: under their names, or in a fixed order. -/
inductive FieldSource where
  | named (fields : List (String × Value))
  | listed (values : List Value)
deriving Repr

/-- The fields of an object or an array. -/
def Value.source? : Value → Option FieldSource
  | object fields => return .named (← namedFields? fields)
  | array values => some (.listed values)
  | _ => none

namespace FieldSource

/-- The field of that name and place, if it is there; a name that repeats is refused. -/
def find? (source : FieldSource) (place : Nat) (name : String) : Option (Option Value) :=
  match source with
  | named fields =>
    match fields.filter (·.1 == name) with
    | [] => some none
    | [(_, value)] => some (some value)
    | _ => none
  | listed values => some values[place]?

/-- Reads a field that has to be there. -/
def required {α : Type} (source : FieldSource) (place : Nat) (name : String)
    (ofJson? : Value → Option α) : Option α := do
  match ← source.find? place name with
  | some value => ofJson? value
  | none => none

/-- Reads a field that stands for `default` when it is missing. -/
def optional {α : Type} (source : FieldSource) (place : Nat) (name : String) (default : α)
    (ofJson? : Value → Option α) : Option α := do
  match ← source.find? place name with
  | some value => ofJson? value
  | none => some default

/-- Refuses a list with more values than there are fields; further names are skipped. -/
def atMost (source : FieldSource) (count : Nat) : Option Unit :=
  match source with
  | named _ => some ()
  | listed values => if values.length ≤ count then some () else none

end FieldSource

/-! ## Reading scalars -/

/-- A value that is true or false. -/
def Value.bool? : Value → Option Bool
  | bool b => some b
  | _ => none

/-- A value that is a string. -/
def Value.string? : Value → Option String
  | text t => t.toString?
  | _ => none

/-- An integer of 32 bits with a sign. -/
def Value.int32? : Value → Option Int32
  | integer i =>
    if Int32.minValue.toInt ≤ i ∧ i ≤ Int32.maxValue.toInt then some (Int32.ofInt i) else none
  | _ => none

/-- An integer of 32 bits without a sign. -/
def Value.uint32? : Value → Option UInt32
  | integer i => if 0 ≤ i ∧ i < UInt32.size then some (UInt32.ofNat i.toNat) else none
  | _ => none

/-- An integer of 64 bits without a sign. -/
def Value.uint64? : Value → Option UInt64
  | integer i => if 0 ≤ i ∧ i < UInt64.size then some (UInt64.ofNat i.toNat) else none
  | _ => none

/--
One of several names: a string, or an object with the name of its only field, which holds nothing.
-/
def Value.name? : Value → Option String
  | text t => t.toString?
  | object [(name, null)] => name.toString?
  | object [(name, object [])] => name.toString?
  | _ => none

end Json

/-! ## Reading flat code -/

namespace FlatEntry

/-- Reads the fields of the entry with that `op`. -/
def ofFields? (op : String) (source : Json.FieldSource) : Option FlatEntry :=
  match op with
  | "ldc_i4" => do
    source.atMost 1
    return .const (← source.required 0 "value" Value.int32?)
  | "ld_loc" => do
    source.atMost 1
    return .load (← source.required 0 "local" Value.uint32?)
  | "peek" => do
    source.atMost 0
    return .peek
  | "unary" => do
    source.atMost 1
    return .unary (← source.required 0 "operator" fun v => v.name?.bind UnaryOp.ofName?)
  | "binary" => do
    source.atMost 1
    return .binary (← source.required 0 "operator" fun v => v.name?.bind BinaryOp.ofName?)
  | "st_loc" => do
    source.atMost 1
    return .store (← source.required 0 "local" Value.uint32?)
  | "call" => do
    source.atMost 3
    let method ← source.required 0 "method" Value.string?
    let args ← source.optional 1 "args" 0 Value.uint64?
    let returnsValue ← source.optional 2 "returns_value" false Value.bool?
    return .call method args returnsValue
  | "ret" => do
    source.atMost 1
    return .ret (← source.optional 0 "value" false Value.bool?)
  | _ => none

/-- How many levels of arrays and objects a document may have around and inside a kept value. -/
def levelLimit : Nat := 127

/-- How many levels an entry may have, itself included: two are around it. -/
def entryLevels : Nat := levelLimit - 2

/-- Reads an entry. -/
def ofJson? (v : Value) : Option FlatEntry :=
  if v.keepable entryLevels then
    match v with
    | .object fields => do
      let fields ← Json.namedFields? fields
      let source := Json.FieldSource.named fields
      let op ← source.required 0 "op" Value.string?
      ofFields? op (.named (fields.filter (·.1 != "op")))
    | .array (op :: values) => do ofFields? (← op.string?) (.listed values)
    | _ => none
  else
    none

end FlatEntry

namespace FlatCode

/-- Reads the entries. -/
def entriesOfJson? : Value → Option (List FlatEntry)
  | .array items => items.mapM FlatEntry.ofJson?
  | _ => none

/-- Reads flat code from the places of its two fields. -/
def ofFields? (source : Json.FieldSource) : Option FlatCode := do
  source.atMost 2
  let name ← source.required 0 "name" Value.string?
  let entries ← source.required 1 "instructions" entriesOfJson?
  return { name := name, entries := entries }

/-- Reads flat code from a value. -/
def ofJson? (v : Value) : Option FlatCode := v.source?.bind ofFields?

/-- The plainest way to tell why a text is not flat code. -/
def noDocument (_ : String) : String := "not a document of flat code"

/-- Reads flat code from a text. Why a text is not flat code is told in the words given. -/
def parse (text : String) (explain : String → String := noDocument) : Except Fault FlatCode :=
  match (Json.read text).bind ofJson? with
  | some code => .ok code
  | none => .error (.json (explain text))

end FlatCode

end StackTree
