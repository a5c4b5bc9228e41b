import StackTree.FlatCode.Document
import StackTree.Pipeline

/-!
# Settings as a document

Settings are kept as a JSON object with a field for each, all of which may be missing, or as an
array of up to three values in a fixed order.
-/

namespace StackTree.Settings

open Json (Value)

/-- The settings as a value, with all their fields. -/
def toJson (s : Settings) : Value :=
  .record [("inline", .bool s.nest), ("fold_constants", .bool s.fold), ("verify", .bool s.audit)]

/-- The settings as a compact text. -/
def compact (s : Settings) : String := s.toJson.compact

/-- Reads settings from the places of their fields. -/
def ofFields? (source : Json.FieldSource) : Option Settings := do
  source.atMost 3
  let defaults : Settings := {}
  let nest ← source.optional 0 "inline" defaults.nest Value.bool?
  let fold ← source.optional 1 "fold_constants" defaults.fold Value.bool?
  let audit ← source.optional 2 "verify" defaults.audit Value.bool?
  return { nest := nest, fold := fold, audit := audit }

/-- Reads settings from a value. -/
def ofJson? (v : Value) : Option Settings := v.source?.bind ofFields?

/-- The plainest way to tell why a text is not settings. -/
def noDocument (_ : String) : String := "not a document of settings"

/-- Reads settings from a text. Why a text is not settings is told in the words given. -/
def parse (text : String) (explain : String → String := noDocument) : Except Fault Settings :=
  match (Json.read text).bind ofJson? with
  | some settings => .ok settings
  | none => .error (.settings (explain text))

end StackTree.Settings
