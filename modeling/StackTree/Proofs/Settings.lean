import StackTree.Proofs.Json.Fields
import StackTree.Proofs.Json.RoundTrip
import StackTree.Settings

/-!
# Which settings a document gives

A document of settings is an object or an array. In an object each of the three fields may be
missing, and then stands for its default; it must not repeat, and it has to hold true or false. All
other fields are skipped, whatever they hold. An array holds up to three truth values in a fixed
order. Whatever describes settings in one of these ways is read as them, and nothing else is read.

## Main definitions

* `Settings.DescribedBy`: a value describes settings.
* `Settings.WrittenIn`: a text with such a value.

## Main results

* `Settings.parse_ok_iff`, `Settings.parse_error_iff`: what is read from a text, and why nothing is.
* `Settings.writtenIn_compact`: the document that is written for settings describes them.
-/

namespace StackTree

open Json (FieldSource Value)

namespace Settings

/-- The fields describe the settings: each field holds a truth value, or is missing and stands for
its default. -/
structure HeldBy (s : Settings) (source : FieldSource) : Prop where
  /-- An array holds nothing else. -/
  few : source.AtMost 3
  /-- Whether nesting runs. -/
  nest : source.HoldsOr 0 "inline" (.bool s.nest) (.bool true)
  /-- Whether folding runs. -/
  fold : source.HoldsOr 1 "fold_constants" (.bool s.fold) (.bool false)
  /-- Whether audits run. -/
  audit : source.HoldsOr 2 "verify" (.bool s.audit) (.bool true)

/-- The value describes the settings: it is an object or an array whose fields do. -/
def DescribedBy (s : Settings) (v : Value) : Prop := ∃ source, v.Gives source ∧ s.HeldBy source

/-- The text is a document that describes the settings. -/
def WrittenIn (s : Settings) (text : String) : Prop :=
  ∃ v, Json.read text = some v ∧ s.DescribedBy v

variable {s : Settings} {v : Value} {text : String} {explain : String → String} {fault : Fault}
variable {source : FieldSource}

/-- Settings are read from fields exactly if these hold them. -/
theorem ofFields?_eq_some_iff : ofFields? source = some s ↔ s.HeldBy source := by
  simp only [ofFields?, Option.bind_eq_bind, Option.bind_eq_some_iff, Option.pure_def,
    Option.some.injEq, FieldSource.atMost_eq_some_iff, exists_const, FieldSource.optional_bool_iff]
  constructor
  · rintro ⟨hfew, nest, hnest, fold, hfold, audit, haudit, rfl⟩
    exact ⟨hfew, hnest, hfold, haudit⟩
  · rintro ⟨hfew, hnest, hfold, haudit⟩
    exact ⟨hfew, _, hnest, _, hfold, _, haudit, rfl⟩

/-- Settings are read from a value exactly if it describes them. -/
theorem ofJson?_eq_some_iff : ofJson? v = some s ↔ s.DescribedBy v := by
  simp only [ofJson?, Option.bind_eq_some_iff, Value.source?_eq_some_iff, ofFields?_eq_some_iff,
    DescribedBy]

/-- Exactly the settings that a text describes are read from it. -/
theorem parse_ok_iff : parse text explain = .ok s ↔ s.WrittenIn text := by
  simp only [WrittenIn, ← ofJson?_eq_some_iff, ← Option.bind_eq_some_iff, parse]
  cases (Json.read text).bind ofJson? <;> simp

/-- A text is refused exactly if it describes no settings, and the words given say why. -/
theorem parse_error_iff :
    parse text explain = .error fault ↔
      (∀ s : Settings, ¬ s.WrittenIn text) ∧ fault = .settings (explain text) := by
  simp only [← @parse_ok_iff _ _ explain, parse]
  cases (Json.read text).bind ofJson? <;> simp [eq_comm]

/-- The document of settings describes them. -/
theorem writtenIn_compact (s : Settings) : s.WrittenIn s.compact := by
  have hplain : s.toJson.Plain := by
    simp [toJson]
  refine ⟨s.toJson, Json.read_compact hplain, _, .object _, trivial, .inl ?_, .inl ?_, .inl ?_⟩
  · exact ⟨[], _, rfl, by simp⟩
  · exact ⟨[("inline", .bool s.nest)], _, rfl, by simp⟩
  · exact ⟨[("inline", .bool s.nest), ("fold_constants", .bool s.fold)], [], rfl, by simp⟩

end Settings

end StackTree
