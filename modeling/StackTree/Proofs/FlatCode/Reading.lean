import StackTree.Proofs.Json.Fields
import Mathlib.Data.List.Forall2

/-!
# Which flat code a document gives

A document of flat code is an object or an array with a name and a list of entries. An entry is an
object with a field `op`, wherever that stands, and the fields that go with it, or an array that
starts with its `op`. Numbers have to fit their widths, an operator is told by its name, and the
fields of a call and of a return may be missing. Whatever describes flat code in this way is read as
it, and nothing else is read.

## Main definitions

* `FlatEntry.HeldBy`: the fields of an entry of some `op`.
* `FlatEntry.DescribedBy`, `FlatCode.DescribedBy`: a value describes an entry, or flat code.
* `FlatCode.WrittenIn`: a text with such a value.

## Main results

* `FlatEntry.ofJson?_eq_some_iff`: what is read as an entry.
* `FlatCode.parse_ok_iff`, `FlatCode.parse_error_iff`: what is read from a text, and why nothing is.
-/

namespace StackTree

open Json (FieldSource Value)

/-! ## Operators by their names -/

theorem UnaryOp.ofName?_eq_some_iff {name : String} {op : UnaryOp} :
    ofName? name = some op ↔ name = op.name := by
  constructor
  · intro h
    unfold ofName? at h
    have hname := List.find?_some h
    exact (eq_of_beq hname).symm
  · rintro rfl
    exact ofName_name op

theorem BinaryOp.ofName?_eq_some_iff {name : String} {op : BinaryOp} :
    ofName? name = some op ↔ name = op.name := by
  constructor
  · intro h
    unfold ofName? at h
    have hname := List.find?_some h
    exact (eq_of_beq hname).symm
  · rintro rfl
    exact ofName_name op

namespace Json.FieldSource

variable {source : FieldSource} {place : Nat} {name : String}

@[simp] theorem required_unary_iff {op : UnaryOp} :
    source.required place name (fun v => v.name?.bind UnaryOp.ofName?) = some op ↔
      ∃ v, source.Holds place name v ∧ v.Tells op.name := by
  simp only [required_eq_some_iff, Option.bind_eq_some_iff, Value.name?_eq_some_iff,
    UnaryOp.ofName?_eq_some_iff, exists_eq_right]

@[simp] theorem required_binary_iff {op : BinaryOp} :
    source.required place name (fun v => v.name?.bind BinaryOp.ofName?) = some op ↔
      ∃ v, source.Holds place name v ∧ v.Tells op.name := by
  simp only [required_eq_some_iff, Option.bind_eq_some_iff, Value.name?_eq_some_iff,
    BinaryOp.ofName?_eq_some_iff, exists_eq_right]

end Json.FieldSource

/-! ## Entries -/

namespace FlatEntry

/-- The fields that go with the `op` hold the entry. -/
inductive HeldBy (source : FieldSource) : FlatEntry → String → Prop where
  | const {value : Int32} (few : source.AtMost 1)
      (value_holds : source.Holds 0 "value" (.integer value.toInt)) :
      HeldBy source (.const value) "ldc_i4"
  | load {slot : UInt32} (few : source.AtMost 1)
      (slot_holds : source.Holds 0 "local" (.integer slot.toNat)) :
      HeldBy source (.load slot) "ld_loc"
  | peek (few : source.AtMost 0) : HeldBy source .peek "peek"
  | unary {op : UnaryOp} {v : Value} (few : source.AtMost 1)
      (op_holds : source.Holds 0 "operator" v) (tells : v.Tells op.name) :
      HeldBy source (.unary op) "unary"
  | binary {op : BinaryOp} {v : Value} (few : source.AtMost 1)
      (op_holds : source.Holds 0 "operator" v) (tells : v.Tells op.name) :
      HeldBy source (.binary op) "binary"
  | store {slot : UInt32} (few : source.AtMost 1)
      (slot_holds : source.Holds 0 "local" (.integer slot.toNat)) :
      HeldBy source (.store slot) "st_loc"
  | call {method : String} {args : UInt64} {returnsValue : Bool} (few : source.AtMost 3)
      (method_holds : source.Holds 0 "method" (.string method))
      (args_hold : source.HoldsOr 1 "args" (.integer args.toNat) (.integer 0))
      (returns_holds : source.HoldsOr 2 "returns_value" (.bool returnsValue) (.bool false)) :
      HeldBy source (.call method args returnsValue) "call"
  | ret {value : Bool} (few : source.AtMost 1)
      (value_holds : source.HoldsOr 0 "value" (.bool value) (.bool false)) :
      HeldBy source (.ret value) "ret"

/-- The value describes the entry. Everything in it can be kept, even what goes with no field. -/
inductive DescribedBy (entry : FlatEntry) : Value → Prop where
  | object {op : String} {before after : List (String × Value)}
      (once : ∀ f ∈ before ++ after, f.1 ≠ "op")
      (held : entry.HeldBy (.named (before ++ after)) op)
      (kept : (Value.record (before ++ ("op", .string op) :: after)).keepable entryLevels = true) :
      DescribedBy entry (.record (before ++ ("op", .string op) :: after))
  | array {op : String} {values : List Value} (held : entry.HeldBy (.listed values) op)
      (kept : (Value.array (.string op :: values)).keepable entryLevels = true) :
      DescribedBy entry (.array (.string op :: values))

variable {entry : FlatEntry} {op : String} {source : FieldSource} {v : Value}

/-- An entry is read from the fields that go with its `op` exactly if these hold it. -/
theorem ofFields?_eq_some_iff : ofFields? op source = some entry ↔ entry.HeldBy source op := by
  constructor
  · intro h
    unfold ofFields? at h
    split at h
    case h_9 => cases h
    all_goals simp only [Option.bind_eq_bind, Option.bind_eq_some_iff, Option.pure_def,
      Option.some.injEq, FieldSource.atMost_eq_some_iff, exists_const,
      FieldSource.required_int32_iff, FieldSource.required_uint32_iff,
      FieldSource.required_string_iff, FieldSource.required_unary_iff,
      FieldSource.required_binary_iff, FieldSource.optional_uint64_iff,
      FieldSource.optional_bool_iff] at h
    · obtain ⟨few, value, holds, rfl⟩ := h
      exact .const few holds
    · obtain ⟨few, slot, holds, rfl⟩ := h
      exact .load few holds
    · obtain ⟨few, rfl⟩ := h
      exact .peek few
    · obtain ⟨few, op, ⟨v, holds, tells⟩, rfl⟩ := h
      exact .unary few holds tells
    · obtain ⟨few, op, ⟨v, holds, tells⟩, rfl⟩ := h
      exact .binary few holds tells
    · obtain ⟨few, slot, holds, rfl⟩ := h
      exact .store few holds
    · obtain ⟨few, method, hmethod, args, hargs, returnsValue, hreturns, rfl⟩ := h
      exact .call few hmethod hargs hreturns
    · obtain ⟨few, value, holds, rfl⟩ := h
      exact .ret few holds
  · intro h
    cases h with
    | const few holds => simp [ofFields?, Option.bind_eq_some_iff, few, holds]
    | load few holds => simp [ofFields?, Option.bind_eq_some_iff, few, holds]
    | peek few => simp [ofFields?, Option.bind_eq_some_iff, few]
    | unary few holds tells =>
      simpa [ofFields?, Option.bind_eq_some_iff, few] using ⟨_, holds, tells⟩
    | binary few holds tells =>
      simpa [ofFields?, Option.bind_eq_some_iff, few] using ⟨_, holds, tells⟩
    | store few holds => simp [ofFields?, Option.bind_eq_some_iff, few, holds]
    | call few hmethod hargs hreturns =>
      simp only [ofFields?, Option.bind_eq_bind, Option.bind_eq_some_iff,
        FieldSource.atMost_eq_some_iff, FieldSource.required_string_iff,
        FieldSource.optional_uint64_iff, FieldSource.optional_bool_iff]
      exact ⟨(), few, _, hmethod, _, hargs, _, hreturns, rfl⟩
    | ret few holds => simp [ofFields?, Option.bind_eq_some_iff, few, holds]

/-- What is left of fields without the only one of a name. -/
theorem filter_others {before after : List (String × Value)} {name : String} {value : Value}
    (h : ∀ f ∈ before ++ after, f.1 ≠ name) :
    (before ++ (name, value) :: after).filter (·.1 != name) = before ++ after := by
  have hothers : (before ++ after).filter (·.1 != name) = before ++ after :=
    List.filter_eq_self.mpr fun f hf => bne_iff_ne.mpr (h f hf)
  rw [List.filter_append, List.filter_cons_of_neg (by simp), ← List.filter_append, hothers]

/-- An entry is read from a value exactly if that describes it. -/
theorem ofJson?_eq_some_iff : ofJson? v = some entry ↔ entry.DescribedBy v := by
  constructor
  · intro h
    unfold ofJson? at h
    split at h
    case isFalse => cases h
    rename_i kept
    split at h
    case h_3 => cases h
    · obtain ⟨fields, hfields, h⟩ := Option.bind_eq_some_iff.mp h
      obtain ⟨op, hop, held⟩ := Option.bind_eq_some_iff.mp h
      obtain ⟨before, after, rfl, once⟩ := FieldSource.required_string_iff.mp hop
      rw [filter_others once] at held
      rw [Json.namedFields?_eq_some_iff.mp hfields] at kept ⊢
      exact .object once (ofFields?_eq_some_iff.mp held) kept
    · obtain ⟨op, hop, held⟩ := Option.bind_eq_some_iff.mp h
      obtain rfl := Value.string?_eq_some_iff.mp hop
      exact .array (ofFields?_eq_some_iff.mp held) kept
  · intro h
    cases h with
    | @object op before after once held kept =>
      have hop : (FieldSource.named (before ++ ("op", .string op) :: after)).required 0 "op"
          Value.string? = some op := FieldSource.required_string_iff.mpr ⟨_, _, rfl, once⟩
      unfold ofJson?
      rw [if_pos kept]
      simp only [Value.record, Json.namedFields?_record, Option.bind_eq_bind, Option.bind_some, hop,
        filter_others once]
      exact ofFields?_eq_some_iff.mpr held
    | array held kept =>
      unfold ofJson?
      rw [if_pos kept]
      simp only [Option.bind_eq_bind, Value.string?_string, Option.bind_some]
      exact ofFields?_eq_some_iff.mpr held

end FlatEntry

/-! ## Flat code -/

/-- Going over a list ends well exactly if every step does, with the results in their order. -/
theorem mapM_eq_some_iff {α β : Type} {f : α → Option β} {as : List α} {bs : List β} :
    as.mapM f = some bs ↔ List.Forall₂ (fun b a => f a = some b) bs as := by
  induction as generalizing bs with
  | nil => simp [eq_comm]
  | cons a as ih =>
    simp only [List.mapM_cons, Option.bind_eq_bind, Option.bind_eq_some_iff, Option.pure_def,
      Option.some.injEq, ih, List.forall₂_cons_right_iff]
    constructor
    · rintro ⟨b, hb, rest, hrest, rfl⟩
      exact ⟨b, rest, hb, hrest, rfl⟩
    · rintro ⟨b, rest, hb, hrest, rfl⟩
      exact ⟨b, hb, rest, hrest, rfl⟩

namespace FlatCode

/-- The fields hold the flat code. -/
structure HeldBy (code : FlatCode) (source : FieldSource) : Prop where
  /-- An array holds nothing else. -/
  few : source.AtMost 2
  /-- The name. -/
  name : source.Holds 0 "name" (.string code.name)
  /-- The entries. -/
  entries : ∃ items, source.Holds 1 "instructions" (.array items) ∧
    List.Forall₂ FlatEntry.DescribedBy code.entries items

/-- The value describes the flat code: it is an object or an array whose fields do. -/
def DescribedBy (code : FlatCode) (v : Value) : Prop :=
  ∃ source, v.Gives source ∧ code.HeldBy source

/-- The text is a document that describes the flat code. -/
def WrittenIn (code : FlatCode) (text : String) : Prop :=
  ∃ v, Json.read text = some v ∧ code.DescribedBy v

variable {code : FlatCode} {v : Value} {text : String} {explain : String → String} {fault : Fault}

theorem entriesOfJson?_eq_some_iff {entries : List FlatEntry} :
    entriesOfJson? v = some entries ↔
      ∃ items, v = .array items ∧ List.Forall₂ FlatEntry.DescribedBy entries items := by
  cases v with
  | array items =>
    simp only [entriesOfJson?, mapM_eq_some_iff, FlatEntry.ofJson?_eq_some_iff, Value.array.injEq,
      exists_eq_left']
  | _ => simp [entriesOfJson?]

theorem required_entries_iff {source : FieldSource} {place : Nat} {name : String}
    {entries : List FlatEntry} :
    source.required place name entriesOfJson? = some entries ↔ ∃ items,
      source.Holds place name (.array items) ∧
        List.Forall₂ FlatEntry.DescribedBy entries items := by
  simp only [FieldSource.required_eq_some_iff, entriesOfJson?_eq_some_iff]
  constructor
  · rintro ⟨_, holds, items, rfl, hitems⟩
    exact ⟨items, holds, hitems⟩
  · rintro ⟨items, holds, hitems⟩
    exact ⟨_, holds, items, rfl, hitems⟩

/-- Flat code is read from fields exactly if these hold it. -/
theorem ofFields?_eq_some_iff {source : FieldSource} :
    ofFields? source = some code ↔ code.HeldBy source := by
  simp only [ofFields?, Option.bind_eq_bind, Option.bind_eq_some_iff, Option.pure_def,
    Option.some.injEq, FieldSource.atMost_eq_some_iff, exists_const,
    FieldSource.required_string_iff, required_entries_iff]
  constructor
  · rintro ⟨few, name, hname, entries, hentries, rfl⟩
    exact ⟨few, hname, hentries⟩
  · rintro ⟨few, hname, hentries⟩
    exact ⟨few, _, hname, _, hentries, rfl⟩

/-- Flat code is read from a value exactly if that describes it. -/
theorem ofJson?_eq_some_iff : ofJson? v = some code ↔ code.DescribedBy v := by
  simp only [ofJson?, Option.bind_eq_some_iff, Value.source?_eq_some_iff, ofFields?_eq_some_iff,
    DescribedBy]

/-- Exactly the flat code that a text describes is read from it. -/
theorem parse_ok_iff : parse text explain = .ok code ↔ code.WrittenIn text := by
  simp only [WrittenIn, ← ofJson?_eq_some_iff, ← Option.bind_eq_some_iff, parse]
  cases (Json.read text).bind ofJson? <;> simp

/-- A text is refused exactly if it describes no flat code, and the words given say why. -/
theorem parse_error_iff :
    parse text explain = .error fault ↔
      (∀ code : FlatCode, ¬ code.WrittenIn text) ∧ fault = .json (explain text) := by
  simp only [← @parse_ok_iff _ _ explain, parse]
  cases (Json.read text).bind ofJson? <;> simp [eq_comm]

end FlatCode

end StackTree
