import StackTree.Proofs.FlatCode.Reading
import StackTree.Proofs.Json.RoundTrip

/-!
# Flat code survives being written as a document

The compact document of flat code reads back as the code, whatever the code is: its names may hold
any characters and its numbers fill their widths. The two directions are written apart, and they
meet in the values between them. The value of flat code is plain, so its text reads back as the
value; and the value describes the code, each entry being an object with just the fields that go
with its `op`.

## Main results

* `FlatCode.toJson_plain`: the value of flat code is one that reads back from its text.
* `FlatEntry.describedBy_toJson`, `FlatCode.describedBy_toJson`: the value that is written describes
  what it is written for.
* `FlatCode.parse_compact`: flat code reads back from its document.
-/

namespace StackTree

namespace Json

/-! ## Values that can be kept -/

@[simp] theorem Value.keepable_string (levels : Nat) (s : String) :
    (Value.string s).keepable levels = true := by
  simp [Value.string, keepable]

/-- A record can be kept if the values in it can be. -/
theorem Value.keepable_record {levels : Nat} {fields : List (String × Value)}
    (h : ∀ f ∈ fields, f.2.keepable levels = true) :
    (Value.record fields).keepable (levels + 1) = true := by
  show fieldsKeepable levels _ = true
  induction fields with
  | nil => rfl
  | cons field fields ih =>
    obtain ⟨hfield, hfields⟩ := List.forall_mem_cons.mp h
    simp [fieldsKeepable, hfield, ih hfields]

end Json

open Json (HasField Value)

/-! ## Entries -/

namespace FlatEntry

theorem toJson_plain (entry : FlatEntry) : entry.toJson.Plain := by
  cases entry <;> simp [toJson]

/-- An object that starts with its `op` describes the entry that the fields after it hold. -/
theorem describedBy_tagged {entry : FlatEntry} {op : String} {fields : List (String × Value)}
    (hnames : ∀ f ∈ fields, f.1 ≠ "op") (hheld : entry.HeldBy (.named fields) op)
    (hkeep : ∀ f ∈ fields, f.2.keepable (entryLevels - 1) = true) :
    entry.DescribedBy (.record (("op", .string op) :: fields)) := by
  have hkept : (Value.record (("op", .string op) :: fields)).keepable entryLevels = true :=
    Value.keepable_record (List.forall_mem_cons.mpr ⟨Value.keepable_string _ op, hkeep⟩)
  exact @DescribedBy.object entry op [] fields hnames hheld hkept

/-- The value of an entry describes it. -/
theorem describedBy_toJson (entry : FlatEntry) : entry.DescribedBy entry.toJson := by
  have honly : ∀ (name : String) (value : Value), HasField [(name, value)] name value :=
    fun name value => ⟨[], [], rfl, by simp⟩
  cases entry with
  | const value =>
    exact describedBy_tagged (by simp) (.const trivial (honly _ _)) (by simp [Value.keepable])
  | load slot =>
    exact describedBy_tagged (by simp) (.load trivial (honly _ _)) (by simp [Value.keepable])
  | peek => exact describedBy_tagged (by simp) (.peek trivial) (by simp)
  | unary op => exact describedBy_tagged (by simp) (.unary trivial (honly _ _) .string) (by simp)
  | binary op => exact describedBy_tagged (by simp) (.binary trivial (honly _ _) .string) (by simp)
  | store slot =>
    exact describedBy_tagged (by simp) (.store trivial (honly _ _)) (by simp [Value.keepable])
  | call method args returnsValue =>
    refine describedBy_tagged (by simp) (.call trivial ?_ (.inl ?_) (.inl ?_))
      (by simp [Value.keepable])
    · exact ⟨[], _, rfl, by simp⟩
    · exact ⟨[("method", .string method)], _, rfl, by simp⟩
    · exact ⟨[("method", .string method), ("args", .integer args.toNat)], [], rfl, by simp⟩
  | ret value =>
    exact describedBy_tagged (by simp) (.ret trivial (.inl (honly _ _))) (by simp [Value.keepable])

end FlatEntry

/-! ## Flat code -/

namespace FlatCode

/-- The value of flat code is one that reads back from its text. -/
theorem toJson_plain (code : FlatCode) : code.toJson.Plain := by
  simp [toJson, FlatEntry.toJson_plain]

/-- The value of flat code describes it. -/
theorem describedBy_toJson (code : FlatCode) : code.DescribedBy code.toJson := by
  have hentries : List.Forall₂ FlatEntry.DescribedBy code.entries
      (code.entries.map (·.toJson)) :=
    List.forall₂_map_right_iff.mpr
      (List.forall₂_same.mpr fun entry _ => entry.describedBy_toJson)
  refine ⟨_, .object _, trivial, ?_, _, ?_, hentries⟩
  · exact ⟨[], _, rfl, by simp⟩
  · exact ⟨[("name", .string code.name)], [], rfl, by simp⟩

/-- Flat code reads back from its compact document: no name, no number and no entry is lost. -/
theorem parse_compact (code : FlatCode) (explain : String → String) :
    parse code.compact explain = .ok code :=
  parse_ok_iff.mpr ⟨code.toJson, Json.read_compact code.toJson_plain, code.describedBy_toJson⟩

end FlatCode

end StackTree
